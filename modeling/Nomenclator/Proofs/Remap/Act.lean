import Nomenclator.Proofs.Outcome
import Nomenclator.Remap.Job

/-! # Steps of jobs — how they lead from file tree to file tree

    A step changes a bench whether it succeeds or fails, and jobs go on working on
    what a failed step left.  So the rules here speak of the file tree after a step
    in both cases.

    * `Idle` — the step leaves the file tree alone;
    * `Leads` — from every tree with one property the step leads to a tree with
      another.  In a sequence, the second step is reached only where the first
      succeeds, so what holds in between must be enough for the end (`Leads.bind`);
    * `Meets` — a success and a failure are described apart, and a success with its
      result;
    * `Ends` — the same for one run on a whole bench, with the error of a failure.
      `Rests` says what such a run leaves alone. -/

namespace Nomenclator.Remap.Act

open Files (Path FileTree IoFault)

variable {ρ α β : Type}

-- ── Running ──────────────────────────────────────────────────────────────────

theorem run_bind (x : Act ρ α) (f : α → Act ρ β) (b : Bench ρ) :
    (x >>= f).run.run b = match x.run.run b with
      | (.ok a, b') => (f a).run.run b'
      | (.error e, b') => (.error e, b') := by
  show (match x.run.run b with | (r, b') => (ExceptT.bindCont f r).run b') = _
  rcases x.run.run b with ⟨r, b'⟩
  cases r with
  | ok a => rfl
  | error e => rfl

theorem run_get_bind (f : Bench ρ → Act ρ β) (b : Bench ρ) :
    (get >>= f).run.run b = (f b).run.run b := rfl

theorem run_modify_bind (g : Bench ρ → Bench ρ) (f : Unit → Act ρ β) (b : Bench ρ) :
    (modify g >>= f).run.run b = (f ()).run.run (g b) := rfl

theorem ite_bind {c : Prop} [Decidable c] (x y : Act ρ α) (f : α → Act ρ β) :
    (if c then x >>= f else y >>= f) = (if c then x else y) >>= f := by
  split <;> rfl

theorem run_orElseDo (step : Act ρ α) (cleanup : Error → Act ρ Unit) (b : Bench ρ) :
    (orElseDo step cleanup).run.run b = match step.run.run b with
      | (.ok a, b') => (.ok a, b')
      | (.error e, b') => (cleanup e >>= fun _ => (throw e : Act ρ α)).run.run b' := by
  rw [orElseDo]
  rw [ExceptT.run_tryCatch, StateT.run_bind]
  generalize step.run.run b = out
  obtain ⟨r, b'⟩ := out
  cases r with
  | ok a => rfl
  | error e => rfl

-- ── Steps that leave the tree alone ──────────────────────────────────────────

/-- The step leaves the file tree alone. -/
def Idle (act : Act ρ α) : Prop := ∀ b, (act.run.run b).2.files = b.files

theorem Idle.bind {x : Act ρ α} {f : α → Act ρ β} (hx : Idle x) (hf : ∀ a, Idle (f a)) :
    Idle (x >>= f) := by
  intro b
  rw [run_bind]
  have hb := hx b
  generalize x.run.run b = out at hb ⊢
  obtain ⟨r, b'⟩ := out
  cases r with
  | ok a => exact (hf a b').trans hb
  | error e => exact hb

theorem idle_pure (a : α) : Idle (pure a : Act ρ α) := fun _ => rfl

theorem idle_throw (e : Error) : Idle (throw e : Act ρ α) := fun _ => rfl

theorem idle_get : Idle (get : Act ρ (Bench ρ)) := fun _ => rfl

theorem idle_ask (question : FileTree → α) : Idle (ask question : Act ρ α) := fun _ => rfl

theorem idle_reportAll (records : Log) : Idle (reportAll records : Act ρ Unit) := fun _ => rfl

theorem idle_report (level : Level) (message : String) :
    Idle (report level message : Act ρ Unit) := fun _ => rfl

theorem idle_invalidateCache : Idle (invalidateCache : Act ρ Nat) := fun _ => rfl

theorem idle_resolveTable (catalog : Naming.Catalog) (direction : Direction) :
    Idle (resolveTable catalog direction : Act ρ Naming.RenameTable) := by
  refine idle_get.bind fun b => ?_
  rcases b.cache.resolve catalog direction with ⟨result, cache, log⟩
  refine Idle.bind (fun _ => rfl) fun _ => ?_
  cases result with
  | ok shared => exact idle_pure _
  | error e => exact idle_throw _

theorem idle_resolveClasspath (input : Path) (seen entries : List Path) :
    Idle (resolveClasspath input seen entries : Act ρ (List Path)) := by
  induction entries generalizing seen with
  | nil => exact idle_pure _
  | cons entry later ih =>
      rw [resolveClasspath]
      by_cases hinput : entry.sameAs input = true
      · rw [if_pos hinput]
        exact ih seen
      rw [if_neg hinput]
      refine (idle_ask _).bind fun found => ?_
      by_cases hmissing : (!found) = true
      · rw [if_pos hmissing]
        exact idle_throw _
      rw [if_neg hmissing]
      by_cases hseen : seen.any entry.sameAs = true
      · rw [if_pos hseen]
        exact ih seen
      rw [if_neg hseen]
      exact (ih _).bind fun _ => idle_pure _

-- ── Steps that lead from tree to tree ────────────────────────────────────────

/-- From every tree with the first property the step leads to a tree with the second, whether
    it succeeds or fails. -/
def Leads (P : FileTree → Prop) (act : Act ρ α) (Q : FileTree → Prop) : Prop :=
  ∀ b, P b.files → Q (act.run.run b).2.files

section Rules

variable {P Q R : FileTree → Prop}

theorem Idle.leads {act : Act ρ α} (h : Idle act) (hPQ : ∀ t, P t → Q t) : Leads P act Q := by
  intro b hb
  rw [h b]
  exact hPQ _ hb

theorem Leads.bind {x : Act ρ α} {f : α → Act ρ β} (hx : Leads P x Q)
    (hf : ∀ a, Leads Q (f a) R) (hQR : ∀ t, Q t → R t) : Leads P (x >>= f) R := by
  intro b hb
  rw [run_bind]
  have hmid := hx b hb
  generalize x.run.run b = out at hmid ⊢
  obtain ⟨r, b'⟩ := out
  cases r with
  | ok a => exact hf a b' hmid
  | error e => exact hQR _ hmid

/-- An idle step first changes nothing. -/
theorem Idle.then {x : Act ρ α} {f : α → Act ρ β} (hx : Idle x) (hf : ∀ a, Leads P (f a) Q)
    (hPQ : ∀ t, P t → Q t) : Leads P (x >>= f) Q :=
  (hx.leads fun _ h => h).bind hf hPQ

theorem Leads.mono {P' Q' : FileTree → Prop} {act : Act ρ α} (h : Leads P act Q)
    (hP : ∀ t, P' t → P t) (hQ : ∀ t, Q t → Q' t) : Leads P' act Q' :=
  fun b hb => hQ _ (h b (hP _ hb))

/-- A step with a clean-up that runs when it fails. -/
theorem Leads.orElseDo {step : Act ρ α} {cleanup : Error → Act ρ Unit} (hstep : Leads P step Q)
    (hclean : ∀ e, Leads Q (cleanup e) R) (hQR : ∀ t, Q t → R t) :
    Leads P (orElseDo step cleanup) R := by
  intro b hb
  rw [run_orElseDo]
  have hmid := hstep b hb
  generalize step.run.run b = out at hmid ⊢
  obtain ⟨r, b'⟩ := out
  cases r with
  | ok a => exact hQR _ hmid
  | error e =>
      have hthrow : Leads R (throw e : Act ρ α) R := (idle_throw e).leads fun _ h => h
      exact (hclean e).bind (fun _ => hthrow) (fun _ h => h) b' hmid

end Rules

-- ── Steps with a result ──────────────────────────────────────────────────────

/-- From every tree with the first property, a success gives a result and a tree as told, and
    a failure a tree as told. -/
structure Meets (P : FileTree → Prop) (act : Act ρ α) (Q : α → FileTree → Prop)
    (E : FileTree → Prop) : Prop where
  ends : ∀ b, P b.files → match act.run.run b with
    | (.ok a, b') => Q a b'.files
    | (.error _, b') => E b'.files

section Rules

variable {P E : FileTree → Prop} {Q : α → FileTree → Prop} {R : β → FileTree → Prop}

theorem Meets.bind {x : Act ρ α} {f : α → Act ρ β} (hx : Meets P x Q E)
    (hf : ∀ a, Meets (Q a) (f a) R E) : Meets P (x >>= f) R E := by
  refine ⟨fun b hb => ?_⟩
  rw [run_bind]
  have hmid := hx.ends b hb
  generalize x.run.run b = out at hmid ⊢
  obtain ⟨r, b'⟩ := out
  cases r with
  | ok a => exact (hf a).ends b' hmid
  | error e => exact hmid

theorem meets_pure {a : α} (h : ∀ t, P t → Q a t) : Meets P (pure a : Act ρ α) Q E :=
  ⟨fun b hb => h b.files hb⟩

theorem meets_throw (e : Error) (h : ∀ t, P t → E t) : Meets P (throw e : Act ρ α) Q E :=
  ⟨fun b hb => h b.files hb⟩

/-- What follows from the property may be used as a fact. -/
theorem Meets.of_fact {p : Prop} {act : Act ρ α} (hp : ∀ t, P t → p) (h : p → Meets P act Q E) :
    Meets P act Q E :=
  ⟨fun b hb => (h (hp b.files hb)).ends b hb⟩

/-- The step may be followed from each tree apart. -/
theorem Meets.of_each {act : Act ρ α} (h : ∀ t, P t → Meets (· = t) act Q E) : Meets P act Q E :=
  ⟨fun b hb => (h b.files hb).ends b rfl⟩

theorem meets_throw_bind (e : Error) {f : α → Act ρ β} (h : ∀ t, P t → E t) :
    Meets P ((throw e : Act ρ α) >>= f) R E :=
  ⟨fun b hb => h b.files hb⟩

theorem Idle.meets {act : Act ρ α} (h : Idle act) (hE : ∀ t, P t → E t) :
    Meets P act (fun _ => P) E := by
  refine ⟨fun b hb => ?_⟩
  have hfiles := h b
  generalize act.run.run b = out at hfiles ⊢
  obtain ⟨r, b'⟩ := out
  cases r with
  | ok a => exact (congrArg P hfiles).mpr hb
  | error e => exact hE _ ((congrArg P hfiles).mpr hb)

/-- A step that always leads to one property meets it in both cases. -/
theorem Leads.meets {F : FileTree → Prop} {act : Act ρ α} (h : Leads P act F)
    (hF : ∀ t, F t → E t) : Meets P act (fun _ => F) E := by
  refine ⟨fun b hb => ?_⟩
  have hfiles := h b hb
  generalize act.run.run b = out at hfiles ⊢
  obtain ⟨r, b'⟩ := out
  cases r with
  | ok a => exact hfiles
  | error e => exact hF _ hfiles

theorem meets_get_bind {f : Bench ρ → Act ρ β}
    (h : ∀ b, P b.files → Meets (· = b.files) (f b) R E) : Meets P (get >>= f) R E :=
  ⟨fun b hb => (h b hb).ends b rfl⟩

theorem meets_ask (question : FileTree → α) :
    Meets P (ask question : Act ρ α) (fun a t => P t ∧ a = question t) E :=
  ⟨fun _ hb => ⟨hb, rfl⟩⟩

/-- A report never fails. -/
theorem meets_report (level : Level) (message : String) :
    Meets P (report level message : Act ρ Unit) (fun _ => P) E :=
  ⟨fun _ hb => hb⟩

/-- A change is made, or nothing is changed. -/
theorem meets_change (t : FileTree) (path : Path) (operation : FileTree → Except IoFault FileTree)
    {E : FileTree → Prop} (hE : E t) :
    Meets (· = t) (change path operation : Act ρ Unit) (fun _ u => operation t = .ok u) E := by
  refine ⟨fun b hb => ?_⟩
  rw [change]
  rw [run_get_bind]
  rw [hb]
  cases hop : operation t with
  | ok u => rfl
  | error f => exact (congrArg E hb).mpr hE

theorem Meets.mono {P' E' : FileTree → Prop} {Q' : α → FileTree → Prop} {act : Act ρ α}
    (h : Meets P act Q E) (hP : ∀ t, P' t → P t) (hQ : ∀ a t, Q a t → Q' a t)
    (hE : ∀ t, E t → E' t) : Meets P' act Q' E' := by
  refine ⟨fun b hb => ?_⟩
  have hmet := h.ends b (hP _ hb)
  generalize act.run.run b = out at hmet ⊢
  obtain ⟨r, b'⟩ := out
  cases r with
  | ok a => exact hQ a _ hmet
  | error e => exact hE _ hmet

/-- A step with a clean-up that runs when it fails. -/
theorem Meets.orElseDo {F : FileTree → Prop} {step : Act ρ α} {cleanup : Error → Act ρ Unit}
    (hstep : Meets P step Q E) (hclean : ∀ e, Leads E (cleanup e) F) :
    Meets P (orElseDo step cleanup) Q F := by
  refine ⟨fun b hb => ?_⟩
  rw [run_orElseDo]
  have hmid := hstep.ends b hb
  generalize step.run.run b = out at hmid ⊢
  obtain ⟨r, b'⟩ := out
  cases r with
  | ok a => exact hmid
  | error e =>
      have hthrow : Leads F (throw e : Act ρ α) F := (idle_throw e).leads fun _ h => h
      have hfinal := (hclean e).bind (fun _ => hthrow) (fun _ h => h) b' hmid
      dsimp only
      rw [run_bind] at hfinal ⊢
      generalize (cleanup e).run.run b' = out' at hfinal ⊢
      obtain ⟨r', b''⟩ := out'
      cases r' with
      | ok _ => exact hfinal
      | error _ => exact hfinal

end Rules

-- ── Runs on a bench ──────────────────────────────────────────────────────────

/-- Run on the bench, the step succeeds with a result and a bench as told, or fails with an
    error and a bench as told. -/
structure Ends (act : Act ρ α) (b : Bench ρ) (Q : α → Bench ρ → Prop)
    (E : Error → Bench ρ → Prop) : Prop where
  holds : match act.run.run b with
    | (.ok a, b') => Q a b'
    | (.error e, b') => E e b'

section Rules

variable {b : Bench ρ} {E : Error → Bench ρ → Prop} {Q : α → Bench ρ → Prop}
  {R : β → Bench ρ → Prop}

theorem Ends.bind {x : Act ρ α} {f : α → Act ρ β} (hx : Ends x b Q E)
    (hf : ∀ a b', Q a b' → Ends (f a) b' R E) : Ends (x >>= f) b R E := by
  refine ⟨?_⟩
  rw [run_bind]
  have hmid := hx.holds
  generalize x.run.run b = out at hmid ⊢
  obtain ⟨r, b'⟩ := out
  cases r with
  | ok a => exact (hf a b' hmid).holds
  | error e => exact hmid

theorem Ends.mono {Q' : α → Bench ρ → Prop} {E' : Error → Bench ρ → Prop} {act : Act ρ α}
    (h : Ends act b Q E) (hQ : ∀ a b', Q a b' → Q' a b') (hE : ∀ e b', E e b' → E' e b') :
    Ends act b Q' E' := by
  refine ⟨?_⟩
  have hends := h.holds
  generalize act.run.run b = out at hends ⊢
  obtain ⟨r, b'⟩ := out
  cases r with
  | ok a => exact hQ a b' hends
  | error e => exact hE e b' hends

theorem ends_pure {a : α} (h : Q a b) : Ends (pure a : Act ρ α) b Q E := ⟨h⟩

theorem ends_throw {e : Error} (h : E e b) : Ends (throw e : Act ρ α) b Q E := ⟨h⟩

theorem ends_get_bind {f : Bench ρ → Act ρ β} (h : Ends (f b) b R E) : Ends (get >>= f) b R E :=
  ⟨h.holds⟩

theorem ends_modify_bind {g : Bench ρ → Bench ρ} {f : Unit → Act ρ β} (h : Ends (f ()) (g b) R E) :
    Ends (modify g >>= f) b R E :=
  ⟨h.holds⟩

/-- A step with a clean-up that runs when it fails. -/
theorem Ends.orElseDo {F : Error → Bench ρ → Prop} {step : Act ρ α} {cleanup : Error → Act ρ Unit}
    (hstep : Ends step b Q E)
    (hclean : ∀ e b', E e b' → Ends (cleanup e) b' (fun _ => F e) fun _ _ => False) :
    Ends (orElseDo step cleanup) b Q F := by
  refine ⟨?_⟩
  rw [run_orElseDo]
  have hmid := hstep.holds
  generalize step.run.run b = out at hmid ⊢
  obtain ⟨r, b'⟩ := out
  cases r with
  | ok a => exact hmid
  | error e =>
      dsimp only
      rw [run_bind]
      have hcleaned := (hclean e b' hmid).holds
      generalize (cleanup e).run.run b' = out' at hcleaned ⊢
      obtain ⟨r', b''⟩ := out'
      cases r' with
      | ok _ => exact hcleaned
      | error _ => exact hcleaned.elim

end Rules

-- ── Outputs ──────────────────────────────────────────────────────────────────

theorem files_changeAll (path : Path) (operation : FileTree → Except IoFault Unit × FileTree)
    (b : Bench ρ) : ((changeAll path operation).run.run b).2.files = (operation b.files).2 := by
  rw [changeAll]
  rw [run_get_bind]
  rcases operation b.files with ⟨result, t⟩
  cases result with
  | ok _ => rfl
  | error f => rfl

/-- What is left when an output has been removed, if it is there and can be. -/
def withoutOutput (t : FileTree) (output : Path) : FileTree :=
  if t.pathExists output then
    match t.removeFile output with
    | .ok t => t
    | .error _ => t
  else t

theorem withoutOutput_cases (t : FileTree) (output : Path) :
    withoutOutput t output = t ∨ t.removeFile output = .ok (withoutOutput t output) := by
  rw [withoutOutput]
  by_cases hexists : t.pathExists output = true
  · rw [if_pos hexists]
    cases t.removeFile output with
    | ok t' => exact .inr rfl
    | error f => exact .inl rfl
  · rw [if_neg hexists]
    exact .inl rfl

/-- What is left when an output and its sidecar have been discarded. -/
def discarding (t : FileTree) (output : Path) : FileTree :=
  Sidecar.discard (withoutOutput t output) output

/-- Discarding an output never fails, and changes nothing but the log beside the tree. -/
theorem run_discardOutput (output : Path) (b : Bench ρ) :
    ∃ log, (discardOutput output).run.run b
      = (.ok (), { b with files := discarding b.files output, log }) := by
  rw [discardOutput, discarding, withoutOutput]
  rw [run_get_bind]
  dsimp only
  by_cases hexists : b.files.pathExists output = true
  · rw [if_pos hexists, if_pos hexists]
    cases b.files.removeFile output with
    | ok t => exact ⟨_, rfl⟩
    | error f => exact ⟨_, rfl⟩
  · rw [if_neg hexists, if_neg hexists]
    exact ⟨_, rfl⟩

theorem files_discardOutput_eq (output : Path) (b : Bench ρ) :
    ((discardOutput output).run.run b).2.files = discarding b.files output := by
  obtain ⟨log, hrun⟩ := run_discardOutput output b
  rw [hrun]

/-- An output is removed, or it stays and the step goes on; then its sidecar goes. -/
theorem files_discardOutput (output : Path) (b : Bench ρ) :
    ∃ t, (t = b.files ∨ b.files.removeFile output = .ok t)
      ∧ ((discardOutput output).run.run b).2.files = Sidecar.discard t output :=
  ⟨withoutOutput b.files output, withoutOutput_cases b.files output,
    files_discardOutput_eq output b⟩

/-- What is left when an output that may be a directory has been discarded. -/
def discarded (t : FileTree) (output : Path) : FileTree :=
  if t.isDir output then (t.removeDirAll output).2
  else Sidecar.discard (withoutOutput t output) output

/-- Discarding an output that may be a directory never fails, and changes nothing but the log
    beside the tree. -/
theorem run_discardTree (output : Path) (b : Bench ρ) :
    ∃ log, (discardTree output).run.run b
      = (.ok (), { b with files := discarded b.files output, log }) := by
  rw [discardTree, discarded, run_get_bind]
  dsimp only
  by_cases hdir : b.files.isDir output = true
  · rw [if_pos hdir, if_pos hdir]
    rcases b.files.removeDirAll output with ⟨result, t⟩
    cases result with
    | ok _ => exact ⟨_, rfl⟩
    | error fault => exact ⟨_, rfl⟩
  · rw [if_neg hdir, if_neg hdir]
    exact run_discardOutput output b

theorem files_discardTree (output : Path) (b : Bench ρ) :
    ((discardTree output).run.run b).2.files = discarded b.files output := by
  obtain ⟨log, hrun⟩ := run_discardTree output b
  rw [hrun]

/-- What is there when the directory of a path has been created, as far as it can be. -/
def withParent (t : FileTree) (path : Path) : FileTree :=
  match path.parent? with
  | some parent => (t.createDirAll parent).2
  | none => t

theorem files_createParent_eq (path : Path) (b : Bench ρ) :
    ((createParent path).run.run b).2.files = withParent b.files path := by
  rw [createParent, withParent]
  cases path.parent? with
  | none => rfl
  | some parent => exact files_changeAll parent _ b

/-- The directory of a path is created, or as much of it as can be. -/
theorem files_createParent (path : Path) (b : Bench ρ) :
    ((createParent path).run.run b).2.files = b.files
      ∨ ∃ parent, ((createParent path).run.run b).2.files = (b.files.createDirAll parent).2 := by
  rw [files_createParent_eq, withParent]
  cases path.parent? with
  | none => exact .inl rfl
  | some parent => exact .inr ⟨parent, rfl⟩

end Nomenclator.Remap.Act

namespace Nomenclator.Remap

open Files (Path FileTree)

/-- Saving a sidecar changes nothing, writes the temporary file, or also puts it in place. -/
theorem Sidecar.save_cases (t : FileTree) (output : Path) (s : Sidecar) :
    (save t output s).2 = t
      ∨ ∃ mid, t.writeText (temporaryPathOf output) s.render = .ok mid
          ∧ ((save t output s).2 = mid
            ∨ mid.rename (temporaryPathOf output) (pathOf output) = .ok (save t output s).2) := by
  -- the two texts are large terms once they are unfolded
  delta save
  generalize temporaryPathOf output = temporary
  generalize s.render = text
  cases t.writeText temporary text with
  | error f => exact .inl rfl
  | ok mid =>
      refine .inr ⟨mid, rfl, ?_⟩
      dsimp only
      cases mid.rename temporary (pathOf output) with
      | error f => exact .inl rfl
      | ok t' => exact .inr rfl
namespace Remapper

open Act

/-- The tool decides on the tree, whatever becomes of the step. -/
theorem files_runTool (r : Remapper) (direction : Direction) (request : Request)
    (b : Bench Request) :
    ((r.runTool direction request).run.run b).2.files = (r.tool.run request b.files).2 := by
  rw [runTool]
  rw [run_modify_bind, run_get_bind]
  cases r.tool.run request b.files with
  | mk result t =>
      simp only [setFiles, run_modify_bind]
      cases result with
      | error chain => rfl
      | ok _ =>
          refine Idle.bind (idle_ask _) (fun found => ?_) _
          cases found with
          | true => exact idle_pure _
          | false => exact idle_throw _

theorem files_saveSidecar (output : Path) (s : Sidecar) (b : Bench Request) :
    ((saveSidecar output s).run.run b).2.files
      = (Sidecar.save b.files output { s with writtenAt := b.now }).2 := by
  rw [saveSidecar]
  rw [run_get_bind]
  rcases Sidecar.save b.files output { s with writtenAt := b.now } with ⟨result, t⟩
  cases result with
  | ok _ => rfl
  | error e => rfl

end Remapper

end Nomenclator.Remap
