import Nomenclator.Proofs.Access.Overrides

/-! # Merging — overrides as a partial commutative monoid

    Merging walks through the entries of the other set and stops at the first
    conflict.  Whether it gets to the end, and with what, can be said without the
    walk: the result requests what one of the two sets requests, and there is such a
    result exactly if they agree about the subjects that both have (`merge_eq_ok_iff`,
    `exists_union_iff`).

    The laws of merging are then those of "or".  Associativity needs one thing more:
    where all three sets have a union, so do any two of them. -/

namespace Nomenclator.Access.Overrides

-- ── Entries in any order ─────────────────────────────────────────────────────

/-- **Adding entries until one is in conflict** gets to the end with the set that has these
    entries more, if there is such a set. -/
theorem addAll_eq_ok_iff {o out : Overrides} {entries : List (Subject × Visibility)} :
    o.addAll entries = (.ok (), out) ↔ o.Gains entries out := by
  rw [← foldlM_add_eq_ok_iff]
  induction entries generalizing o with
  | nil =>
      constructor
      · intro h
        exact congrArg Except.ok (Prod.mk.inj h).2
      · intro h
        exact congrArg (Prod.mk _) (Except.ok.inj h)
  | cons entry later ih =>
      obtain ⟨subject, visibility⟩ := entry
      rw [addAll, List.foldlM_cons]
      cases o.add subject visibility with
      | ok next => exact ih
      | error e =>
          constructor
          · intro h
            exact nomatch (Prod.mk.inj h).1
          · intro h
            exact nomatch h

/-- Entries that agree with what is there and with each other can be gained. -/
theorem exists_gains {o : Overrides} {entries : List (Subject × Visibility)}
    (hadmits : ∀ e ∈ entries, o.Admits e.1 e.2)
    (hagree : ∀ e ∈ entries, ∀ e' ∈ entries, e.1 = e'.1 → e.2 = e'.2) :
    ∃ out, o.Gains entries out := by
  induction entries generalizing o with
  | nil => exact ⟨o, rfl, fun _ _ => by simp⟩
  | cons entry later ih =>
      obtain ⟨next, hnext⟩ :=
        (exists_add_iff o entry.1 entry.2).2 (hadmits entry List.mem_cons_self)
      have hone := add_eq_ok_iff.1 hnext
      have hlater : ∀ e ∈ later, next.Admits e.1 e.2 := by
        intro e he existing hexisting
        rcases (hone.requests e.1 existing).1 hexisting with hold | hnew
        · exact hadmits e (List.mem_cons_of_mem _ he) existing hold
        · obtain ⟨hsubject, rfl⟩ := Prod.mk.inj (List.mem_singleton.1 hnew)
          exact hagree entry List.mem_cons_self e (List.mem_cons_of_mem _ he) hsubject.symm
      obtain ⟨out, hout⟩ := ih hlater fun e he e' he' =>
        hagree e (List.mem_cons_of_mem _ he) e' (List.mem_cons_of_mem _ he')
      exact ⟨out, hone.cons_iff.2 hout⟩

/-- The order of the entries does not matter. -/
theorem Gains.perm {o out : Overrides} {entries entries' : List (Subject × Visibility)}
    (hperm : entries.Perm entries') (h : o.Gains entries out) : o.Gains entries' out := by
  refine ⟨h.label, fun subject visibility => ?_⟩
  rw [h.requests, hperm.mem_iff]

-- ── Unions ───────────────────────────────────────────────────────────────────

/-- Two sets that agree about every subject that both have. -/
def Compatible (a b : Overrides) : Prop :=
  ∀ subject v w, a.get? subject = some v → b.get? subject = some w → v = w

/-- Overrides, in the namespace of two others, that request what one of these does. -/
structure IsUnion (a b out : Overrides) : Prop where
  left : out.label = a.label
  right : out.label = b.label
  requests : ∀ subject visibility, out.get? subject = some visibility
    ↔ a.get? subject = some visibility ∨ b.get? subject = some visibility

section Unions

variable {a b c out : Overrides}

theorem IsUnion.symm (h : IsUnion a b out) : IsUnion b a out :=
  ⟨h.right, h.left, fun subject visibility => (h.requests subject visibility).trans or_comm⟩

theorem isUnion_self (a : Overrides) : IsUnion a a a :=
  ⟨rfl, rfl, fun _ _ => (or_self_iff).symm⟩

/-- A set without entries is a unit. -/
theorem isUnion_new (a : Overrides) : IsUnion a { label := a.label } a := by
  refine ⟨rfl, rfl, fun subject visibility => ?_⟩
  rw [get?_new]
  exact (or_iff_left fun h => nomatch h).symm

/-- **Merging gives the union**, if there is one. -/
theorem merge_eq_ok_iff : a.merge b = (.ok (), out) ↔ IsUnion a b out := by
  rw [merge]
  by_cases hlabel : b.label = a.label
  · rw [if_neg fun hne => hne hlabel, addAll_eq_ok_iff]
    constructor
    · intro h
      refine ⟨h.label, h.label.trans hlabel.symm, fun subject visibility => ?_⟩
      rw [h.requests, mem_entries_iff]
    · intro h
      refine ⟨h.left, fun subject visibility => ?_⟩
      rw [h.requests, mem_entries_iff]
  · rw [if_pos hlabel]
    constructor
    · intro h
      exact nomatch (Prod.mk.inj h).1
    · intro h
      exact absurd (h.right.symm.trans h.left) hlabel

/-- Sets of one namespace have a union exactly if they are compatible. -/
theorem exists_union_iff : (∃ out, IsUnion a b out) ↔ b.label = a.label ∧ a.Compatible b := by
  constructor
  · rintro ⟨out, h⟩
    refine ⟨h.right.symm.trans h.left, fun subject v w hv hw => ?_⟩
    have hleft := (h.requests subject v).2 (.inl hv)
    have hright := (h.requests subject w).2 (.inr hw)
    exact Option.some.inj (hleft.symm.trans hright)
  · rintro ⟨hlabel, hcompatible⟩
    have hadmits : ∀ e ∈ b.entries, a.Admits e.1 e.2 := by
      intro e he existing hexisting
      exact hcompatible e.1 existing e.2 hexisting (mem_entries_iff.1 he)
    have hagree : ∀ e ∈ b.entries, ∀ e' ∈ b.entries, e.1 = e'.1 → e.2 = e'.2 := by
      intro e he e' he' hsubject
      have hone := mem_entries_iff.1 he
      rw [hsubject, mem_entries_iff.1 he'] at hone
      exact (Option.some.inj hone).symm
    obtain ⟨out, hout⟩ := exists_gains hadmits hagree
    refine ⟨out, hout.label, hout.label.trans hlabel.symm, fun subject visibility => ?_⟩
    rw [hout.requests, mem_entries_iff]

/-- Fewer entries can be gained as well. -/
theorem Gains.of_subset {entries entries' : List (Subject × Visibility)}
    (h : a.Gains entries out) (hsubset : entries' ⊆ entries) : ∃ out', a.Gains entries' out' := by
  refine exists_gains (fun e he => h.admits (hsubset he)) fun e he e' he' hsubject => ?_
  have hone := (h.requests e.1 e.2).2 (.inr (hsubset he))
  have hother := (h.requests e'.1 e'.2).2 (.inr (hsubset he'))
  rw [← hsubject] at hother
  exact Option.some.inj (hone.symm.trans hother)

/-- **Entries that are gained together** give the union of what their parts give. -/
theorem gains_append_iff {first second : List (Subject × Visibility)} :
    c.Gains (first ++ second) out
      ↔ ∃ a b, c.Gains first a ∧ c.Gains second b ∧ IsUnion a b out := by
  have hparts : ∀ {a b : Overrides}, c.Gains first a → c.Gains second b → ∀ subject visibility,
      (c.get? subject = some visibility ∨ (subject, visibility) ∈ first ++ second)
        ↔ a.get? subject = some visibility ∨ b.get? subject = some visibility := by
    intro a b ha hb subject visibility
    rw [ha.requests, hb.requests, List.mem_append, or_or_distrib_left]
  constructor
  · intro h
    obtain ⟨a, ha⟩ := h.of_subset (List.subset_append_left first second)
    obtain ⟨b, hb⟩ := h.of_subset (List.subset_append_right first second)
    exact ⟨a, b, ha, hb, h.label.trans ha.label.symm, h.label.trans hb.label.symm,
      fun subject visibility => (h.requests subject visibility).trans (hparts ha hb _ _)⟩
  · rintro ⟨a, b, ha, hb, h⟩
    exact ⟨h.left.trans ha.label,
      fun subject visibility => (h.requests subject visibility).trans (hparts ha hb _ _).symm⟩

/-- Where three sets have a union, it can be reached through the last two. -/
theorem IsUnion.assoc {ab : Overrides} (hab : IsUnion a b ab) (h : IsUnion ab c out) :
    ∃ bc, IsUnion b c bc ∧ IsUnion a bc out := by
  have hcompatible : b.Compatible c := by
    intro subject v w hv hw
    have hleft := (h.requests subject v).2 (.inl ((hab.requests subject v).2 (.inr hv)))
    have hright := (h.requests subject w).2 (.inr hw)
    exact Option.some.inj (hleft.symm.trans hright)
  have hlabel : c.label = b.label := h.right.symm.trans (h.left.trans hab.right)
  obtain ⟨bc, hbc⟩ := exists_union_iff.2 ⟨hlabel, hcompatible⟩
  refine ⟨bc, hbc, h.left.trans hab.left, h.right.trans hbc.right.symm,
    fun subject visibility => ?_⟩
  rw [h.requests, hab.requests, hbc.requests, or_assoc]

end Unions

/-- **Merging is a partial commutative and idempotent monoid.** Two sets merge exactly if they
    are in one namespace and agree about every class, method and field that both have. Either
    may be merged into the other, three sets may be merged from the left or from the right: both
    ways succeed together, with the same result. A set merged with itself stays as it is, and so
    does one that is merged with a set without entries. Overrides that are added to such a set
    may be added in any order: all orders succeed with one result, or none does. -/
theorem merge_partial_monoid (a b c : Overrides) :
    ((∃ out, a.merge b = (.ok (), out)) ↔ b.label = a.label ∧ a.Compatible b)
      ∧ (∀ out, a.merge b = (.ok (), out) ↔ b.merge a = (.ok (), out))
      ∧ (∀ out, (∃ ab, a.merge b = (.ok (), ab) ∧ ab.merge c = (.ok (), out))
          ↔ ∃ bc, b.merge c = (.ok (), bc) ∧ a.merge bc = (.ok (), out))
      ∧ a.merge a = (.ok (), a)
      ∧ a.merge { label := a.label } = (.ok (), a)
      ∧ merge { label := a.label } a = (.ok (), a)
      ∧ ∀ label (entries entries' : List (Subject × Visibility)), entries.Perm entries' →
          ∀ out, addAll { label } entries = (.ok (), out)
            ↔ addAll { label } entries' = (.ok (), out) := by
  simp only [merge_eq_ok_iff, addAll_eq_ok_iff]
  refine ⟨exists_union_iff, fun out => ⟨.symm, .symm⟩, fun out => ⟨?_, ?_⟩, isUnion_self a,
    isUnion_new a, (isUnion_new a).symm, fun label entries entries' hperm out => ?_⟩
  · rintro ⟨ab, hab, hout⟩
    exact hab.assoc hout
  · rintro ⟨bc, hbc, hout⟩
    -- the same read from the right to the left
    obtain ⟨ba, hba, hout⟩ := hbc.symm.assoc hout.symm
    exact ⟨ba, hba.symm, hout.symm⟩
  · exact ⟨.perm hperm, .perm hperm.symm⟩

/-- Two sets that share a class, and a third that is in conflict with the first. -/
theorem merge_partial_monoid_overlap :
    ∃ a b c out : Overrides, a.merge b = (.ok (), out) ∧ b.merge a = (.ok (), out)
      ∧ a.Compatible b ∧ ¬ a.Compatible c
      ∧ (∃ bc, b.merge c = (.ok (), bc) ∧ ∀ all, a.merge bc ≠ (.ok (), all))
      ∧ out.entries.length = 3
      ∧ addAll { label := "n" } out.entries.reverse = (.ok (), out) := by
  let field : MemberRef := ⟨"Box", "x", "I"⟩
  let a : Overrides :=
    { label := "n", classes := .ofList [("Box", .toAll)], fields := .ofList [(field, .toAll)] }
  let b : Overrides :=
    { label := "n"
      classes := .ofList [("Box", .toAll)]
      methods := .ofList [(⟨"Box", "run", "()V"⟩, .toSubclasses)] }
  let c : Overrides := { label := "n", fields := .ofList [(field, .toOwner)] }
  let out : Overrides := { a with methods := b.methods }
  have hab : a.merge b = (.ok (), out) := rfl
  have hbc : b.merge c = (.ok (), { b with fields := c.fields }) := rfl
  obtain ⟨hsuccess, hcomm, hassoc, -, -, -, hperm⟩ := merge_partial_monoid a b c
  have hac : ¬ a.Compatible c := by
    intro h
    exact nomatch h (.ofMember .field field) .toAll .toOwner (by decide) (by decide)
  have hoc : ¬ out.Compatible c := fun h =>
    hac fun subject v w hv => h subject v w ((merge_eq_ok_iff.1 hab).requests subject v |>.2 (.inl hv))
  refine ⟨a, b, c, out, hab, (hcomm out).1 hab, (hsuccess.1 ⟨out, hab⟩).2, hac,
    ⟨_, hbc, fun all hall => ?_⟩, rfl, ?_⟩
  · obtain ⟨ab, hab', hall'⟩ := (hassoc all).2 ⟨_, hbc, hall⟩
    obtain rfl : out = ab := (Prod.mk.inj (hab.symm.trans hab')).2
    exact hoc ((merge_partial_monoid out c c).1.1 ⟨all, hall'⟩).2
  · exact (hperm "n" out.entries out.entries.reverse (List.reverse_perm _).symm out).1 rfl

end Nomenclator.Access.Overrides
