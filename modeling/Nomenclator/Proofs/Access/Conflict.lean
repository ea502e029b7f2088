import Nomenclator.Proofs.Access.Merge

/-! # Conflicts — what a merge that fails leaves behind

    Merging adds the entries of the other set one by one, and what has been added
    stays when a conflict ends the walk.

    * **The walk** — it stops at an entry that cannot be added to what the entries
      before it have made (`addAll_eq_error_iff`);
    * **The first conflict** — a set lists no subject twice, so the entries before
      have nothing to do with the subject of the conflict: it was there from the
      start, with another visibility, and it is the first such entry (`StopsAt`). -/

namespace Nomenclator.Access.Overrides

variable {o other out : Overrides} {entries before : List (Subject × Visibility)}
  {subject : Subject} {existing requested : Visibility} {e : Error}

-- ── The walk ─────────────────────────────────────────────────────────────────

/-- After entries that can be added, the walk goes on from there. -/
theorem addAll_append (h : o.addAll before = (.ok (), out))
    (later : List (Subject × Visibility)) : o.addAll (before ++ later) = out.addAll later := by
  induction before generalizing o with
  | nil =>
      obtain rfl := (Prod.mk.inj h).2
      rfl
  | cons first rest ih =>
      rw [List.cons_append, addAll]
      rw [addAll] at h
      cases hadd : o.add first.1 first.2 with
      | ok next =>
          rw [hadd] at h
          exact ih h
      | error _ =>
          rw [hadd] at h
          cases (Prod.mk.inj h).1

/-- A walk that fails does so at an entry, with those before it added. -/
theorem exists_entry_of_addAll (h : o.addAll entries = (.error e, out)) :
    ∃ before entry later, entries = before ++ entry :: later ∧ o.Gains before out
      ∧ out.add entry.1 entry.2 = .error e := by
  induction entries generalizing o with
  | nil => exact nomatch (Prod.mk.inj h).1
  | cons first rest ih =>
      rw [addAll] at h
      cases hadd : o.add first.1 first.2 with
      | ok next =>
          rw [hadd] at h
          obtain ⟨before, entry, later, rfl, hgains, herror⟩ := ih h
          exact ⟨first :: before, entry, later, rfl, (add_eq_ok_iff.1 hadd).cons_iff.2 hgains,
            herror⟩
      | error fault =>
          rw [hadd] at h
          obtain ⟨hfault, rfl⟩ := Prod.mk.inj h
          exact ⟨[], first, rest, rfl, addAll_eq_ok_iff.1 rfl,
            hadd.trans (congrArg _ (Except.error.inj hfault))⟩

/-- **Adding entries stops at the first that cannot be added**, with those before it. -/
theorem addAll_eq_error_iff :
    o.addAll entries = (.error e, out)
      ↔ ∃ before entry later, entries = before ++ entry :: later ∧ o.Gains before out
          ∧ out.add entry.1 entry.2 = .error e := by
  refine ⟨exists_entry_of_addAll, ?_⟩
  rintro ⟨before, entry, later, rfl, hgains, herror⟩
  rw [addAll_append (addAll_eq_ok_iff.2 hgains), addAll, herror]

-- ── The first conflict ───────────────────────────────────────────────────────

/-- Merging stops at an entry of the other set, for which something else is requested here. It is
    the first such entry, and the entries before it have been added. -/
structure StopsAt (o other : Overrides) (subject : Subject) (existing requested : Visibility)
    (out : Overrides) : Prop where
  label : other.label = o.label
  held : o.get? subject = some existing
  differs : existing ≠ requested
  walked : ∃ before later, other.entries = before ++ (subject, requested) :: later
    ∧ (∀ entry ∈ before, o.Admits entry.1 entry.2) ∧ o.Gains before out

/-- What the entries before an entry of a set add is not about its subject. -/
theorem get?_of_gains_before {later : List (Subject × Visibility)}
    (hentries : other.entries = before ++ (subject, requested) :: later)
    (hgains : o.Gains before out) (hdiffers : existing ≠ requested) :
    out.get? subject = some existing ↔ o.get? subject = some existing := by
  rw [hgains.requests]
  refine or_iff_left fun hbefore => hdiffers ?_
  have hthere : other.get? subject = some requested := by
    rw [← mem_entries_iff, hentries]
    exact List.mem_append_right _ List.mem_cons_self
  have hagain : other.get? subject = some existing := by
    rw [← mem_entries_iff, hentries]
    exact List.mem_append_left _ hbefore
  exact Option.some.inj (hagain.symm.trans hthere)

theorem merge_of_label_eq (h : other.label = o.label) :
    o.merge other = o.addAll other.entries :=
  if_neg (not_not.2 h)

theorem merge_of_label_ne (h : other.label ≠ o.label) :
    o.merge other = (.error (.namespaceMismatch o.label other.label), o) :=
  if_pos h

/-- A merge that fails is refused as a whole, or stops at a conflict. -/
theorem merge_eq_error_iff :
    o.merge other = (.error e, out)
      ↔ (other.label ≠ o.label ∧ e = .namespaceMismatch o.label other.label ∧ out = o)
        ∨ ∃ subject existing requested, e = .conflict subject existing requested
            ∧ o.StopsAt other subject existing requested out := by
  by_cases hlabel : other.label = o.label
  · rw [merge_of_label_eq hlabel, addAll_eq_error_iff]
    constructor
    · rintro ⟨before, ⟨subject, requested⟩, later, hentries, hgains, herror⟩
      obtain ⟨existing, hheld, hdiffers, rfl⟩ := add_eq_error_iff.1 herror
      exact .inr ⟨subject, existing, requested, rfl, hlabel,
        (get?_of_gains_before hentries hgains hdiffers).1 hheld, hdiffers,
        before, later, hentries, fun _ => hgains.admits, hgains⟩
    · rintro (⟨hne, -⟩ | ⟨subject, existing, requested, rfl, hstops⟩)
      · exact absurd hlabel hne
      · obtain ⟨before, later, hentries, -, hgains⟩ := hstops.walked
        have hheld := (get?_of_gains_before hentries hgains hstops.differs).2 hstops.held
        exact ⟨before, _, later, hentries, hgains,
          add_eq_error_iff.2 ⟨existing, hheld, hstops.differs, rfl⟩⟩
  · rw [merge_of_label_ne hlabel]
    constructor
    · intro h
      obtain ⟨herror, rfl⟩ := Prod.mk.inj h
      exact .inl ⟨hlabel, (Except.error.inj herror).symm, rfl⟩
    · rintro (⟨-, rfl, rfl⟩ | ⟨_, _, _, -, hstops⟩)
      · rfl
      · exact absurd hstops.label hlabel

/-- **What a failed merge leaves behind.** A set in another namespace is refused, and nothing
    changes. In the same namespace, the entries of the other set are taken in their order:
    classes, then methods, then fields, each by their keys. The conflict that is reported belongs
    to the first entry for whose subject something else is requested here, and what is left is
    the old set with the entries before this one: no old request is changed. -/
theorem merge_failure (o other : Overrides) :
    (∀ expected found out, o.merge other = (.error (.namespaceMismatch expected found), out)
        ↔ other.label ≠ o.label ∧ expected = o.label ∧ found = other.label ∧ out = o)
      ∧ (∀ subject existing requested out,
          o.merge other = (.error (.conflict subject existing requested), out)
            ↔ o.StopsAt other subject existing requested out)
      ∧ ∀ e out, o.merge other = (.error e, out) →
          (e = .namespaceMismatch o.label other.label
            ∨ ∃ subject existing requested, e = .conflict subject existing requested)
          ∧ ∀ subject visibility, o.get? subject = some visibility →
              out.get? subject = some visibility := by
  simp only [merge_eq_error_iff]
  refine ⟨fun expected found out => ?_, fun subject existing requested out => ?_, ?_⟩
  · simp only [Error.namespaceMismatch.injEq, reduceCtorEq, false_and, exists_false, or_false,
      and_assoc]
  · simp only [reduceCtorEq, false_and, and_false, false_or, Error.conflict.injEq]
    constructor
    · rintro ⟨_, _, _, ⟨rfl, rfl, rfl⟩, hstops⟩
      exact hstops
    · intro hstops
      exact ⟨_, _, _, ⟨rfl, rfl, rfl⟩, hstops⟩
  · rintro e out (⟨-, rfl, rfl⟩ | ⟨subject, existing, requested, rfl, hstops⟩)
    · exact ⟨.inl rfl, fun _ _ hold => hold⟩
    · obtain ⟨before, later, -, -, hgains⟩ := hstops.walked
      exact ⟨.inr ⟨_, _, _, rfl⟩, fun s v hold => (hgains.requests s v).2 (.inl hold)⟩

/-- A new class and a new method are added, a known class is passed, and then the first of two
    fields is in conflict. -/
theorem merge_failure_at_field :
    ∃ o other out : Overrides,
      o.merge other = (.error (.conflict (.ofMember .field ⟨"Box", "x", "I"⟩) .toAll .toOwner), out)
      ∧ o.StopsAt other (.ofMember .field ⟨"Box", "x", "I"⟩) .toAll .toOwner out
      ∧ (∀ subject visibility, o.get? subject = some visibility →
          out.get? subject = some visibility)
      ∧ merge { o with label := "m" } other
          = (.error (.namespaceMismatch "m" "n"), { o with label := "m" })
      ∧ o.get? (.ofMember .field ⟨"Box", "x", "I"⟩) = some .toAll
      ∧ out.get? (.ofClass "Lid") = some .toPackage
      ∧ out.get? (.ofMember .method ⟨"Box", "run", "()V"⟩) = some .toAll
      ∧ other.get? (.ofMember .field ⟨"Box", "y", "I"⟩) = some .toAll
      ∧ out.get? (.ofMember .field ⟨"Box", "y", "I"⟩) = none := by
  let x : MemberRef := ⟨"Box", "x", "I"⟩
  let y : MemberRef := ⟨"Box", "y", "I"⟩
  let run : MemberRef := ⟨"Box", "run", "()V"⟩
  let o : Overrides :=
    { label := "n", classes := .ofList [("Box", .toAll)], fields := .ofList [(x, .toAll)] }
  let other : Overrides :=
    { label := "n"
      classes := .ofList [("Box", .toAll), ("Lid", .toPackage)]
      methods := .ofList [(run, .toAll)]
      fields := .ofList [(x, .toOwner), (y, .toAll)] }
  let out : Overrides :=
    { o with
      classes := .ofList [("Box", .toAll), ("Lid", .toPackage)]
      methods := .ofList [(run, .toAll)] }
  have hmerge : o.merge other
      = (.error (.conflict (.ofMember .field x) .toAll .toOwner), out) := by decide +kernel
  obtain ⟨-, hconflict, hfailure⟩ := merge_failure o other
  exact ⟨o, other, out, hmerge, (hconflict _ _ _ _).1 hmerge, (hfailure _ _ hmerge).2,
    ((merge_failure { o with label := "m" } other).1 _ _ _).2 ⟨by decide, rfl, rfl, rfl⟩,
    by decide +kernel⟩

end Nomenclator.Access.Overrides
