import Mathlib.Data.List.Nodup
import Mathlib.Data.List.Perm.Subperm
import Nomenclator.Access.Overrides
import Nomenclator.Proofs.Outcome
import Nomenclator.Proofs.SortedMap

/-! # Overrides — what is requested after an override is added

    Overrides are determined by the visibility that they request for each subject.
    Setting one subject leaves the others alone, and adding succeeds exactly when
    nothing else was requested before.  Entries that are added one after the other
    give the set that requests what was there and what is added, if there is such a
    set (`foldlM_add_eq_ok_iff`): no order of the entries is left in this. -/

namespace Nomenclator.Access.Overrides

theorem get?_set (o : Overrides) (subject other : Subject) (visibility : Visibility) :
    (o.set subject visibility).get? other
      = if other = subject then some visibility else o.get? other := by
  cases subject with
  | ofClass name =>
      cases other with
      | ofClass name' =>
          show (o.classes.insert name visibility).get? name' = _
          rw [SortedMap.get?_insert]
          simp only [Subject.ofClass.injEq]
          rfl
      | ofMember kind member =>
          rw [if_neg Subject.noConfusion]
          cases kind <;> rfl
  | ofMember kind member =>
      cases other with
      | ofClass name' =>
          rw [if_neg Subject.noConfusion]
          cases kind <;> rfl
      | ofMember kind' member' =>
          cases kind <;> cases kind'
          · show (o.fields.insert member visibility).get? member' = _
            rw [SortedMap.get?_insert]
            simp only [Subject.ofMember.injEq, true_and]
            rfl
          · rw [if_neg (by simp)]
            rfl
          · rw [if_neg (by simp)]
            rfl
          · show (o.methods.insert member visibility).get? member' = _
            rw [SortedMap.get?_insert]
            simp only [Subject.ofMember.injEq, true_and]
            rfl

theorem label_set (o : Overrides) (subject : Subject) (visibility : Visibility) :
    (o.set subject visibility).label = o.label := by
  rcases subject with name | ⟨kind, member⟩
  · rfl
  · cases kind <;> rfl

/-- Nothing else than the given visibility is requested for the subject. -/
def Admits (o : Overrides) (subject : Subject) (visibility : Visibility) : Prop :=
  ∀ existing, o.get? subject = some existing → existing = visibility

/-- Adding succeeds exactly when nothing else was requested for the subject. -/
theorem exists_add_iff (o : Overrides) (subject : Subject) (visibility : Visibility) :
    (∃ out, o.add subject visibility = .ok out) ↔ o.Admits subject visibility := by
  rw [add, Admits]
  cases o.get? subject with
  | none => exact ⟨fun _ _ h => (nomatch h), fun _ => ⟨_, rfl⟩⟩
  | some existing =>
      dsimp only
      by_cases heq : existing = visibility
      · rw [if_pos heq]
        exact ⟨fun _ old hold => (Option.some.inj hold).symm.trans heq, fun _ => ⟨_, rfl⟩⟩
      · rw [if_neg heq]
        exact ⟨fun ⟨_, h⟩ => (nomatch h), fun h => absurd (h existing rfl) heq⟩

/-- An override that was added is requested, and all others are as before. -/
theorem add_eq_ok {o out : Overrides} {subject : Subject} {visibility : Visibility}
    (h : o.add subject visibility = .ok out) :
    out.label = o.label
      ∧ ∀ other, out.get? other = if other = subject then some visibility else o.get? other := by
  rw [add] at h
  cases hget : o.get? subject with
  | none =>
      rw [hget] at h
      cases h
      exact ⟨o.label_set subject visibility, fun other => o.get?_set subject other visibility⟩
  | some existing =>
      rw [hget] at h
      dsimp only at h
      by_cases heq : existing = visibility
      · rw [if_pos heq] at h
        cases h
        refine ⟨rfl, fun other => ?_⟩
        by_cases hother : other = subject
        · rw [if_pos hother, hother, hget, heq]
        · rw [if_neg hother]
      · rw [if_neg heq] at h
        exact nomatch h

/-- Adding fails exactly when something else was requested, and then reports both. -/
theorem add_eq_error_iff {o : Overrides} {subject : Subject} {visibility : Visibility}
    {e : Error} :
    o.add subject visibility = .error e
      ↔ ∃ existing, o.get? subject = some existing ∧ existing ≠ visibility
          ∧ e = .conflict subject existing visibility := by
  rw [add]
  cases o.get? subject with
  | none => exact ⟨fun h => (nomatch h), fun ⟨_, h, _⟩ => (nomatch h)⟩
  | some old =>
      dsimp only
      by_cases heq : old = visibility
      · rw [if_pos heq]
        constructor
        · intro h
          exact nomatch h
        · rintro ⟨existing, hexisting, hne, -⟩
          exact absurd ((Option.some.inj hexisting).symm.trans heq) hne
      · rw [if_neg heq]
        constructor
        · intro h
          exact ⟨old, rfl, heq, (Except.error.inj h).symm⟩
        · rintro ⟨existing, hexisting, -, rfl⟩
          obtain rfl := Option.some.inj hexisting
          rfl

/-- The entries are what is requested. -/
theorem mem_entries_iff {o : Overrides} {subject : Subject} {visibility : Visibility} :
    (subject, visibility) ∈ o.entries ↔ o.get? subject = some visibility := by
  rw [entries, List.mem_append, List.mem_append]
  rcases subject with name | ⟨kind, member⟩
  · simp only [List.mem_map, Prod.mk.injEq, reduceCtorEq, false_and, and_false, exists_false,
      or_false, Subject.ofClass.injEq]
    rw [get?, SortedMap.get?_eq_some_iff]
    exact ⟨fun ⟨e, he, h⟩ => h.1 ▸ h.2 ▸ he, fun h => ⟨_, h, rfl, rfl⟩⟩
  · cases kind with
    | field =>
        simp only [List.mem_map, Prod.mk.injEq, reduceCtorEq, false_and, and_false, exists_false,
          false_or, Subject.ofMember.injEq, true_and]
        rw [get?, members, SortedMap.get?_eq_some_iff]
        exact ⟨fun ⟨e, he, h⟩ => h.1 ▸ h.2 ▸ he, fun h => ⟨_, h, rfl, rfl⟩⟩
    | method =>
        simp only [List.mem_map, Prod.mk.injEq, reduceCtorEq, false_and, and_false, exists_false,
          false_or, or_false, Subject.ofMember.injEq, true_and]
        rw [get?, members, SortedMap.get?_eq_some_iff]
        exact ⟨fun ⟨e, he, h⟩ => h.1 ▸ h.2 ▸ he, fun h => ⟨_, h, rfl, rfl⟩⟩

/-- Overrides are determined by their namespace and what they request. -/
theorem ext_get? {o other : Overrides} (hlabel : o.label = other.label)
    (h : ∀ subject, o.get? subject = other.get? subject) : o = other := by
  have hclasses : o.classes = other.classes := SortedMap.ext_get? fun name => h (.ofClass name)
  have hmethods : o.methods = other.methods :=
    SortedMap.ext_get? fun m => h (.ofMember .method m)
  have hfields : o.fields = other.fields := SortedMap.ext_get? fun m => h (.ofMember .field m)
  cases o
  cases other
  cases hlabel
  cases hclasses
  cases hmethods
  cases hfields
  rfl

/-- Overrides that request what others do and the given entries, and nothing else. -/
structure Gains (o : Overrides) (entries : List (Subject × Visibility)) (out : Overrides) :
    Prop where
  label : out.label = o.label
  requests : ∀ subject visibility, out.get? subject = some visibility
    ↔ o.get? subject = some visibility ∨ (subject, visibility) ∈ entries

/-- There is at most one such set. -/
theorem Gains.unique {o out out' : Overrides} {entries : List (Subject × Visibility)}
    (h : o.Gains entries out) (h' : o.Gains entries out') : out = out' := by
  refine ext_get? (h.label.trans h'.label.symm) fun subject => Option.ext fun visibility => ?_
  rw [h.requests, h'.requests]

/-- Entries that are gained are not in conflict with what is there: a set requests one visibility
    for a subject. -/
theorem Gains.admits {o out : Overrides} {entries : List (Subject × Visibility)}
    (h : o.Gains entries out) {subject : Subject} {visibility : Visibility}
    (hmem : (subject, visibility) ∈ entries) : o.Admits subject visibility := by
  intro existing hexisting
  have hold := (h.requests subject existing).2 (.inl hexisting)
  have hnew := (h.requests subject visibility).2 (.inr hmem)
  exact Option.some.inj (hold.symm.trans hnew)

/-- **Adding one override** gives the set with this one more, if there is such a set. -/
theorem add_eq_ok_iff {o out : Overrides} {subject : Subject} {visibility : Visibility} :
    o.add subject visibility = .ok out ↔ o.Gains [(subject, visibility)] out := by
  have hgains : ∀ {next}, o.add subject visibility = .ok next →
      o.Gains [(subject, visibility)] next := by
    intro next hnext
    have hadmits := (exists_add_iff o subject visibility).1 ⟨next, hnext⟩
    obtain ⟨hlabel, hget⟩ := add_eq_ok hnext
    refine ⟨hlabel, fun other level => ?_⟩
    rw [hget other, List.mem_singleton, Prod.mk.injEq]
    by_cases heq : other = subject
    · rw [if_pos heq, heq, Option.some.injEq]
      constructor
      · intro hlevel
        exact .inr ⟨rfl, hlevel.symm⟩
      · rintro (hold | ⟨-, hlevel⟩)
        · exact (hadmits level hold).symm
        · exact hlevel.symm
    · rw [if_neg heq]
      exact (or_iff_left fun hbad => heq hbad.1).symm
  constructor
  · exact hgains
  · intro h
    obtain ⟨next, hnext⟩ :=
      (exists_add_iff o subject visibility).2 (h.admits List.mem_cons_self)
    rw [hnext, (hgains hnext).unique h]

/-- Entries are gained one after the other. -/
theorem Gains.cons_iff {o next out : Overrides} {entry : Subject × Visibility}
    {later : List (Subject × Visibility)} (hone : o.Gains [entry] next) :
    o.Gains (entry :: later) out ↔ next.Gains later out := by
  have hrequests : ∀ subject visibility,
      (o.get? subject = some visibility ∨ (subject, visibility) ∈ entry :: later)
        ↔ next.get? subject = some visibility ∨ (subject, visibility) ∈ later := by
    intro subject visibility
    rw [hone.requests, List.mem_singleton, List.mem_cons, or_assoc]
  constructor
  · intro h
    refine ⟨h.label.trans hone.label.symm, fun subject visibility => ?_⟩
    rw [h.requests, hrequests]
  · intro h
    refine ⟨h.label.trans hone.label, fun subject visibility => ?_⟩
    rw [h.requests, hrequests]

/-- **Adding entries one after the other** gives the set with these more, if there is such a
    set. -/
theorem foldlM_add_eq_ok_iff {o out : Overrides} {entries : List (Subject × Visibility)} :
    entries.foldlM (fun o e => o.add e.1 e.2) o = .ok out ↔ o.Gains entries out := by
  induction entries generalizing o with
  | nil =>
      have hsame : o.Gains [] o := ⟨rfl, fun _ _ => by simp⟩
      constructor
      · intro h
        obtain rfl := Except.ok.inj h
        exact hsame
      · intro h
        exact congrArg Except.ok (hsame.unique h)
  | cons entry later ih =>
      rw [List.foldlM_cons, Outcome.bind_eq_ok]
      constructor
      · rintro ⟨next, hnext, hlater⟩
        exact (add_eq_ok_iff.1 hnext).cons_iff.2 (ih.1 hlater)
      · intro h
        obtain ⟨next, hnext⟩ :=
          (exists_add_iff o entry.1 entry.2).2 (h.admits List.mem_cons_self)
        exact ⟨next, hnext, ih.2 ((add_eq_ok_iff.1 hnext).cons_iff.1 h)⟩

/-- Nothing is requested in a set without entries. -/
@[simp] theorem get?_new (label : String) (subject : Subject) :
    get? { label } subject = none := by
  rcases subject with name | ⟨kind, member⟩
  · rfl
  · cases kind <;> rfl

/-- **The entries of a set make up the set.** -/
theorem foldlM_add_entries (o : Overrides) :
    o.entries.foldlM (fun (o : Overrides) e => o.add e.1 e.2) { label := o.label } = .ok o := by
  refine foldlM_add_eq_ok_iff.2 ⟨rfl, fun subject visibility => ?_⟩
  rw [get?_new, mem_entries_iff]
  exact ⟨.inr, fun h => h.resolve_left fun hnone => nomatch hnone⟩

-- ── The number of entries ────────────────────────────────────────────────────

theorem length_entries (o : Overrides) : o.entries.length = o.size := by
  rw [entries, List.length_append, List.length_append, List.length_map, List.length_map,
    List.length_map]
  rfl

/-- A set lists no entry twice. -/
theorem entries_nodup (o : Overrides) : o.entries.Nodup := by
  have hlisted : ∀ {κ : Type} [Ord κ] [Std.LawfulEqOrd κ] (m : SortedMap κ Visibility)
      {f : κ → Subject}, Function.Injective f →
        (m.toList.map fun e => (f e.1, e.2)).Nodup := by
    intro κ _ _ m f hf
    refine List.Nodup.map (fun e e' heq => ?_) (SortedMap.toList_nodup m)
    obtain ⟨hkey, hvisibility⟩ := Prod.mk.inj heq
    exact Prod.ext (hf hkey) hvisibility
  have hapart : ∀ {κ κ' : Type} (xs : List (κ × Visibility)) (ys : List (κ' × Visibility))
      {f : κ → Subject} {g : κ' → Subject}, (∀ x y, f x ≠ g y) →
        List.Disjoint (xs.map fun e => (f e.1, e.2)) (ys.map fun e => (g e.1, e.2)) := by
    intro κ κ' xs ys f g hne e hx hy
    obtain ⟨x, -, rfl⟩ := List.mem_map.1 hx
    obtain ⟨y, -, heq⟩ := List.mem_map.1 hy
    exact hne x.1 y.1 (Prod.mk.inj heq).1.symm
  refine ((hlisted _ ?_).append (hlisted _ ?_) (hapart _ _ ?_)).append (hlisted _ ?_)
    (List.disjoint_append_left.2 ⟨hapart _ _ ?_, hapart _ _ ?_⟩)
  · exact fun _ _ => Subject.ofClass.inj
  · exact fun _ _ heq => (Subject.ofMember.inj heq).2
  · exact fun _ _ => Subject.noConfusion
  · exact fun _ _ heq => (Subject.ofMember.inj heq).2
  · exact fun _ _ => Subject.noConfusion
  · exact fun _ _ heq => nomatch (Subject.ofMember.inj heq).1

/-- Overrides each of whose requests is taken from another set, with a subject of which it is
    the image, are not more than that set. -/
theorem size_le_of_images {o out : Overrides} {image : Subject → Option Subject}
    (h : ∀ target visibility, out.get? target = some visibility →
      ∃ subject, o.get? subject = some visibility ∧ image subject = some target) :
    out.size ≤ o.size := by
  let moved : List (Subject × Visibility) :=
    o.entries.filterMap fun e => (image e.1).map fun target => (target, e.2)
  have hsubset : out.entries ⊆ moved := by
    rintro ⟨target, visibility⟩ hmem
    obtain ⟨subject, hget, himage⟩ := h target visibility (mem_entries_iff.1 hmem)
    refine List.mem_filterMap.2 ⟨(subject, visibility), mem_entries_iff.2 hget, ?_⟩
    rw [himage]
    rfl
  calc out.size = out.entries.length := (length_entries out).symm
    _ ≤ moved.length := (List.subperm_of_subset (entries_nodup out) hsubset).length_le
    _ ≤ o.entries.length := List.length_filterMap_le ..
    _ = o.size := length_entries o

end Nomenclator.Access.Overrides
