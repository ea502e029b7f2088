import Mathlib.Data.List.Forall2

/-! # Outcomes — opening computations that succeeded

    Readers and loaders are plain sequences of steps that can fail.  A success of
    the whole is a success of every step:

    * `bind_eq_ok` and `map_eq_ok` take one step off the front;
    * `toOption_eq_some` says what is known of a result whose error was dropped;
    * `mapM_eq_ok` turns a pass over a list into a pointwise relation;
    * `foldlM_induction` carries an invariant through a fold, with the items that
      are still to come in view, `foldlM_history` with those that have been read;
    * `Agree` compares two computations, failures included;
    * `run_bind_of_ok` takes one step off the front of a run that also changes a state, and
      `run_bind_of_error` ends the run at a step that fails. -/

namespace Nomenclator.Outcome

universe u v w

variable {ε : Type u} {α : Type v} {β : Type w}

/-- A sequence of two steps succeeds when both do. -/
theorem bind_eq_ok {β : Type v} {x : Except ε α} {f : α → Except ε β} {b : β} :
    x >>= f = .ok b ↔ ∃ a, x = .ok a ∧ f a = .ok b := by
  cases x with
  | error e =>
      constructor
      · intro h
        exact nomatch h
      · rintro ⟨a, h, -⟩
        exact nomatch h
  | ok a =>
      constructor
      · intro h
        exact ⟨a, rfl, h⟩
      · rintro ⟨a', h, hf⟩
        cases h
        exact hf

/-- A sequence of two steps fails at the first of them or at the second. -/
theorem bind_eq_error {β : Type v} {x : Except ε α} {f : α → Except ε β} {e : ε} :
    x >>= f = .error e ↔ x = .error e ∨ ∃ a, x = .ok a ∧ f a = .error e := by
  cases x with
  | error e' =>
      constructor
      · intro h
        exact .inl (congrArg Except.error (Except.error.inj h))
      · rintro (h | ⟨a, h, -⟩)
        · exact congrArg Except.error (Except.error.inj h)
        · exact nomatch h
  | ok a =>
      constructor
      · intro h
        exact .inr ⟨a, rfl, h⟩
      · rintro (h | ⟨a', h, hf⟩)
        · exact nomatch h
        · cases h
          exact hf

/-- Changing the result does not change success. -/
theorem map_eq_ok {x : Except ε α} {f : α → β} {b : β} :
    x.map f = .ok b ↔ ∃ a, x = .ok a ∧ f a = b := by
  cases x with
  | error e =>
      constructor
      · intro h
        exact nomatch h
      · rintro ⟨a, h, -⟩
        exact nomatch h
  | ok a =>
      constructor
      · intro h
        exact ⟨a, rfl, Except.ok.inj h⟩
      · rintro ⟨a', h, hf⟩
        cases h
        exact congrArg Except.ok hf

/-- Changing the result does not change the error. -/
theorem map_eq_error {x : Except ε α} {f : α → β} {e : ε} :
    x.map f = .error e ↔ x = .error e := by
  cases x with
  | error e' =>
      exact ⟨fun h => congrArg Except.error (Except.error.inj h), fun h => by cases h; rfl⟩
  | ok a =>
      constructor
      · intro h
        exact nomatch h
      · intro h
        exact nomatch h

/-- Changing the error does not change success. -/
theorem mapError_eq_ok {ε' : Type w} {x : Except ε α} {f : ε → ε'} {a : α} :
    x.mapError f = .ok a ↔ x = .ok a := by
  cases x with
  | error e =>
      constructor
      · intro h
        exact nomatch h
      · intro h
        exact nomatch h
  | ok a' => exact ⟨fun h => congrArg Except.ok (Except.ok.inj h), fun h => by cases h; rfl⟩

/-- Changing the error changes just that. -/
theorem mapError_eq_error {ε' : Type w} {x : Except ε α} {f : ε → ε'} {e : ε'} :
    x.mapError f = .error e ↔ ∃ e', x = .error e' ∧ f e' = e := by
  cases x with
  | error e' =>
      constructor
      · intro h
        exact ⟨e', rfl, Except.error.inj h⟩
      · rintro ⟨e'', h, hf⟩
        cases h
        exact congrArg Except.error hf
  | ok a =>
      constructor
      · intro h
        exact nomatch h
      · rintro ⟨e', h, -⟩
        exact nomatch h

/-- A result may be kept without the error. -/
theorem toOption_eq_some {x : Except ε α} {a : α} : x.toOption = some a ↔ x = .ok a := by
  cases x with
  | error e =>
      constructor
      · intro h
        exact nomatch h
      · intro h
        exact nomatch h
  | ok b => exact ⟨fun h => congrArg _ (Option.some.inj h), fun h => congrArg _ (Except.ok.inj h)⟩

theorem toOption_map (x : Except ε α) (f : α → β) : (x.map f).toOption = x.toOption.map f := by
  cases x <;> rfl

/-- A pass over a list succeeds when it does so at every item, in order. -/
theorem mapM_eq_ok {β : Type v} {f : α → Except ε β} {xs : List α} {ys : List β}
    (h : xs.mapM f = .ok ys) : List.Forall₂ (fun x y => f x = .ok y) xs ys := by
  induction xs generalizing ys with
  | nil =>
      cases h
      exact List.Forall₂.nil
  | cons x rest ih =>
      rw [List.mapM_cons] at h
      obtain ⟨y, hy, h⟩ := bind_eq_ok.1 h
      obtain ⟨later, hlater, h⟩ := bind_eq_ok.1 h
      cases h
      exact List.Forall₂.cons hy (ih hlater)

/-- Items that are paired by what two functions read off them give one list of readings. -/
theorem map_eq_map {γ : Type u} {f : α → γ} {g : β → γ} {xs : List α} {ys : List β}
    (h : List.Forall₂ (fun x y => f x = g y) xs ys) : xs.map f = ys.map g := by
  induction h with
  | nil => rfl
  | cons hxy _ ih => rw [List.map_cons, List.map_cons, hxy, ih]

/-- What a pass gives comes from an item of the list. -/
theorem exists_source {R : α → β → Prop} {xs : List α} {ys : List β} (h : List.Forall₂ R xs ys)
    {y : β} (hy : y ∈ ys) : ∃ x ∈ xs, R x y := by
  induction h with
  | nil => exact nomatch hy
  | cons hxy _ ih =>
      rcases List.mem_cons.1 hy with rfl | hy
      · exact ⟨_, List.mem_cons_self, hxy⟩
      · obtain ⟨x, hx, hR⟩ := ih hy
        exact ⟨x, List.mem_cons_of_mem _ hx, hR⟩

/-- Every item of the list leads to something that a pass gives. -/
theorem exists_image {R : α → β → Prop} {xs : List α} {ys : List β} (h : List.Forall₂ R xs ys)
    {x : α} (hx : x ∈ xs) : ∃ y ∈ ys, R x y := by
  obtain ⟨y, hy, hR⟩ := exists_source h.flip hx
  exact ⟨y, hy, hR⟩

/-- A pass over a list succeeds exactly when it does so at every item. -/
theorem exists_mapM_iff {β : Type v} {f : α → Except ε β} {xs : List α} :
    (∃ ys, xs.mapM f = .ok ys) ↔ ∀ x ∈ xs, ∃ y, f x = .ok y := by
  constructor
  · rintro ⟨ys, hys⟩ x hx
    obtain ⟨y, -, hy⟩ := exists_image (mapM_eq_ok hys) hx
    exact ⟨y, hy⟩
  · intro h
    induction xs with
    | nil => exact ⟨[], rfl⟩
    | cons x rest ih =>
        obtain ⟨y, hy⟩ := h x List.mem_cons_self
        obtain ⟨ys, hys⟩ := ih fun x' hx' => h x' (List.mem_cons_of_mem _ hx')
        refine ⟨y :: ys, ?_⟩
        rw [List.mapM_cons, hy, hys]
        rfl

/-- What every step of a successful fold keeps holds at its end. The invariant may speak of
    the items that are still to come. -/
theorem foldlM_induction {σ : Type v} {step : σ → β → Except ε σ} (I : List β → σ → Prop)
    (hstep : ∀ item later s s', I (item :: later) s → step s item = .ok s' → I later s')
    {items : List β} {s s' : σ} (hstart : I items s) (h : items.foldlM step s = .ok s') :
    I [] s' := by
  induction items generalizing s with
  | nil =>
      cases h
      exact hstart
  | cons item later ih =>
      rw [List.foldlM_cons] at h
      obtain ⟨next, hnext, h⟩ := bind_eq_ok.1 h
      exact ih (hstep item later s next hstart hnext) h

/-- The same, where the invariant speaks of the items that have been read. -/
theorem foldlM_history {σ : Type v} {step : σ → β → Except ε σ} (I : List β → σ → Prop)
    (hstep : ∀ past item s s', I past s → step s item = .ok s' → I (past ++ [item]) s')
    {items : List β} {s s' : σ} (hstart : I [] s) (h : items.foldlM step s = .ok s') :
    I items s' := by
  have hrun := foldlM_induction (fun later s => ∃ past, past ++ later = items ∧ I past s)
    (fun item later s s' hi hs => ?_) ⟨[], List.nil_append _, hstart⟩ h
  · obtain ⟨past, hpast, hI⟩ := hrun
    rw [List.append_nil] at hpast
    exact hpast ▸ hI
  · obtain ⟨past, hpast, hI⟩ := hi
    exact ⟨past ++ [item], by rw [List.append_assoc]; exact hpast, hstep past item s s' hI hs⟩

/-- A fold that fails does so with the error of a step. -/
theorem exists_step_of_foldlM_eq_error {σ : Type v} {step : σ → β → Except ε σ} {items : List β}
    {s : σ} {e : ε} (h : items.foldlM step s = .error e) :
    ∃ item ∈ items, ∃ s', step s' item = .error e := by
  induction items generalizing s with
  | nil => exact nomatch h
  | cons item later ih =>
      rw [List.foldlM_cons] at h
      rcases bind_eq_error.1 h with h | ⟨next, -, h⟩
      · exact ⟨item, List.mem_cons_self, s, h⟩
      · obtain ⟨item', hitem', hstep⟩ := ih h
        exact ⟨item', List.mem_cons_of_mem _ hitem', hstep⟩

-- ── Two computations ─────────────────────────────────────────────────────────

/-- Two computations agree: both succeed, with related results, or both fail, with one error. -/
inductive Agree {α β : Type v} (R : α → β → Prop) : Except ε α → Except ε β → Prop where
  | ok {a : α} {b : β} (h : R a b) : Agree R (.ok a) (.ok b)
  | error (e : ε) : Agree R (.error e) (.error e)

namespace Agree

variable {α β γ δ : Type v} {R : α → β → Prop} {S : γ → δ → Prop}

/-- Sequences agree when their steps do. -/
theorem bind {x : Except ε α} {y : Except ε β} {f : α → Except ε γ} {g : β → Except ε δ}
    (h : Agree R x y) (hf : ∀ a b, R a b → Agree S (f a) (g b)) :
    Agree S (x >>= f) (y >>= g) := by
  cases h with
  | ok h => exact hf _ _ h
  | error e => exact Agree.error e

/-- Computations that agree may go on alike. -/
theorem bind_eq {x : Except ε α} {y : Except ε β} {f : α → Except ε γ} {g : β → Except ε γ}
    (h : Agree R x y) (hf : ∀ a b, R a b → f a = g b) : x >>= f = y >>= g := by
  cases h with
  | ok h => exact hf _ _ h
  | error e => rfl

/-- The second computation may go on to change its result. -/
theorem thenReturn {S : α → δ → Prop} {x : Except ε α} {y : Except ε β} {g : β → δ}
    (h : Agree R x y) (hg : ∀ a b, R a b → S a (g b)) :
    Agree S x (y >>= fun b => return g b) := by
  cases h with
  | ok h => exact Agree.ok (hg _ _ h)
  | error e => exact Agree.error e

end Agree

-- ── Steps on a state ─────────────────────────────────────────────────────────

/-- After a step that succeeds the next is taken, in the state that the first leaves. -/
theorem run_bind_of_ok {σ ε α β : Type} {x : ExceptT ε (StateM σ) α} {s s' : σ} {a : α}
    (h : x.run.run s = (.ok a, s')) (f : α → ExceptT ε (StateM σ) β) :
    (x >>= f).run.run s = (f a).run.run s' := by
  show (match x.run.run s with | (r, s') => (ExceptT.bindCont f r).run s') = _
  rw [h]
  rfl

/-- After a step that fails no other is taken. -/
theorem run_bind_of_error {σ ε α β : Type} {x : ExceptT ε (StateM σ) α} {s s' : σ} {e : ε}
    (h : x.run.run s = (.error e, s')) (f : α → ExceptT ε (StateM σ) β) :
    (x >>= f).run.run s = (.error e, s') := by
  show (match x.run.run s with | (r, s') => (ExceptT.bindCont f r).run s') = _
  rw [h]
  rfl

end Nomenclator.Outcome
