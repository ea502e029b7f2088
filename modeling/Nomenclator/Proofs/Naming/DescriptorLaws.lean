import Nomenclator.Proofs.Naming.Descriptor

/-! # Laws of descriptors — renaming is substitution

    Renaming reads a descriptor into its parts, changes the names among them and
    writes the parts down.  Nothing of this would be a substitution if the text that
    is written were read into other parts.

    * **Reading again** — a name may hold any character but the `;` that would end
      it, so every part that is written is read back as itself (`partsFrom_write`);
    * **References** — renaming replaces the names that a descriptor mentions, one by
      one, and depends on them alone (`renameClasses_congr`);
    * **Composition** — renaming twice is renaming once, by the first name after the
      second (`followedBy`). -/

namespace Nomenclator.Descriptor

/-- The name of a class after a renaming: a name that the renaming does not know is kept. -/
def renamed (rename : String → Option String) (name : String) : String := (rename name).getD name

/-- One renaming after another: a class has a new name if one of the two gives it one. -/
def followedBy (first second : String → Option String) (name : String) : Option String :=
  (second (renamed first name)).or (first name)

theorem renamed_followedBy (first second : String → Option String) (name : String) :
    renamed (followedBy first second) name = renamed second (renamed first name) := by
  rw [renamed, followedBy, renamed.eq_def second]
  cases second (renamed first name) <;> rfl

/-- A part after a renaming. -/
def Part.rename (rename : String → Option String) : Part → Part
  | .plain c => .plain c
  | .reference name => .reference (renamed rename name)
  | .unclosed => .unclosed

-- ── Reading again ────────────────────────────────────────────────────────────

/-- A part that is read off a text: an `L` is never a character of its own, and a name ends at
    the first `;`. -/
def Part.Readable : Part → Prop
  | .plain c => c ≠ 'L'
  | .reference name => ';' ∉ name.toList
  | .unclosed => True

/-- Every part that is read is readable. -/
theorem readable_of_mem_partsFrom {pending : Option (List Char)} {cs : List Char}
    (hpending : ∀ name, pending = some name → ';' ∉ name) :
    ∀ part ∈ partsFrom pending cs, part.Readable := by
  induction cs generalizing pending with
  | nil =>
      cases pending with
      | none => exact fun _ hpart => nomatch hpart
      | some name => exact fun part hpart => List.mem_singleton.1 hpart ▸ trivial
  | cons c rest ih =>
      have hnone : ∀ part ∈ partsFrom none rest, part.Readable := ih fun _ h => nomatch h
      cases pending with
      | none =>
          by_cases hc : c = 'L'
          · rw [partsFrom, if_pos hc]
            exact ih fun name hname => Option.some.inj hname ▸ List.not_mem_nil
          · rw [partsFrom, if_neg hc]
            exact List.forall_mem_cons.2 ⟨hc, hnone⟩
      | some name =>
          have hname : ';' ∉ name := hpending name rfl
          by_cases hc : c = ';'
          · rw [partsFrom, if_pos hc]
            refine List.forall_mem_cons.2 ⟨?_, hnone⟩
            rw [Part.Readable, String.toList_ofList, List.mem_reverse]
            exact hname
          · rw [partsFrom, if_neg hc]
            refine ih fun longer hlonger => ?_
            obtain rfl := Option.some.inj hlonger
            exact List.not_mem_cons_of_ne_of_not_mem (Ne.symm hc) hname

theorem readable_of_mem_parts {descriptor : String} :
    ∀ part ∈ parts descriptor, part.Readable :=
  readable_of_mem_partsFrom fun _ h => nomatch h

/-- A reference ends at its `;`. -/
theorem partsFrom_reference {name : List Char} (h : ';' ∉ name) (read rest : List Char) :
    partsFrom (some read) (name ++ ';' :: rest)
      = .reference (String.ofList (read.reverse ++ name)) :: partsFrom none rest := by
  induction name generalizing read with
  | nil => rw [List.nil_append, partsFrom, if_pos rfl, List.append_nil]
  | cons c later ih =>
      have hc : c ≠ ';' := (List.ne_of_not_mem_cons h).symm
      rw [List.cons_append, partsFrom, if_neg hc, ih (List.not_mem_of_not_mem_cons h),
        List.reverse_cons, List.append_assoc, List.singleton_append]

/-- **What is written is read back**, with the names that were written. -/
theorem partsFrom_write {rename : String → Option String} {parts : List Part} {out : List Char}
    (hreadable : ∀ part ∈ parts, (part.rename rename).Readable)
    (h : write rename parts = .ok out) : partsFrom none out = parts.map (Part.rename rename) := by
  induction parts generalizing out with
  | nil =>
      cases h
      rfl
  | cons part rest ih =>
      obtain ⟨hpart, hrest⟩ := List.forall_mem_cons.1 hreadable
      cases part with
      | plain c =>
          obtain ⟨tail, htail, rfl⟩ := Outcome.map_eq_ok.1 h
          rw [partsFrom, if_neg hpart, ih hrest htail]
          rfl
      | reference name =>
          rw [write] at h
          by_cases hempty : name = ""
          · rw [if_pos hempty] at h
            cases h
          · rw [if_neg hempty] at h
            obtain ⟨tail, htail, rfl⟩ := Outcome.map_eq_ok.1 h
            rw [List.cons_append, partsFrom, if_pos rfl, ← renamed, partsFrom_reference hpart,
              ih hrest htail, List.reverse_nil, List.nil_append, String.ofList_toList]
            rfl
      | unclosed => cases h

-- ── References ───────────────────────────────────────────────────────────────

/-- The references are closed and none of them is empty. -/
theorem exists_namesIn_iff (parts : List Part) :
    (∃ names, namesIn parts = .ok names ∧ "" ∉ names)
      ↔ ∀ part ∈ parts, part ≠ .unclosed ∧ part ≠ .reference "" := by
  induction parts with
  | nil => exact ⟨fun _ part hpart => (nomatch hpart), fun _ => ⟨[], rfl, List.not_mem_nil⟩⟩
  | cons part rest ih =>
      rw [List.forall_mem_cons, ← ih]
      cases part with
      | plain c => exact (and_iff_right ⟨Part.noConfusion, Part.noConfusion⟩).symm
      | reference name =>
          constructor
          · rintro ⟨names, hnames, hne⟩
            obtain ⟨later, hlater, rfl⟩ := Outcome.map_eq_ok.1 hnames
            have hname : name ≠ "" := (List.ne_of_not_mem_cons hne).symm
            exact ⟨⟨Part.noConfusion, fun h => hname (Part.reference.inj h)⟩,
              later, hlater, List.not_mem_of_not_mem_cons hne⟩
          · rintro ⟨⟨-, hname⟩, later, hlater, hrest⟩
            exact ⟨name :: later, Outcome.map_eq_ok.2 ⟨later, hlater, rfl⟩,
              List.not_mem_cons_of_ne_of_not_mem (fun h => hname (h ▸ rfl)) hrest⟩
      | unclosed => exact ⟨fun ⟨_, h, _⟩ => (nomatch h), fun h => absurd rfl h.1.1⟩

/-- A descriptor is complete if its references can be listed and none of them is empty. -/
theorem complete_iff (descriptor : String) :
    Complete descriptor ↔ ∃ names, references descriptor = .ok names ∧ "" ∉ names :=
  (exists_namesIn_iff (parts descriptor)).symm

/-- Renaming replaces the names that are mentioned. -/
theorem namesIn_map_rename (rename : String → Option String) (parts : List Part) :
    namesIn (parts.map (Part.rename rename))
      = (namesIn parts).map fun names => names.map (renamed rename) := by
  induction parts with
  | nil => rfl
  | cons part rest ih =>
      cases part with
      | plain c => exact ih
      | reference name =>
          rw [List.map_cons, Part.rename, namesIn, namesIn, ih]
          cases namesIn rest <;> rfl
      | unclosed => rfl

/-- What is written depends only on the names that are mentioned. -/
theorem write_congr {first second : String → Option String} {parts : List Part}
    {names : List String} (hnames : namesIn parts = .ok names)
    (h : ∀ name ∈ names, renamed first name = renamed second name) :
    write first parts = write second parts := by
  induction parts generalizing names with
  | nil => rfl
  | cons part rest ih =>
      cases part with
      | plain c => rw [write, write, ih hnames h]
      | reference name =>
          obtain ⟨later, hlater, rfl⟩ := Outcome.map_eq_ok.1 hnames
          obtain ⟨hname, hrest⟩ := List.forall_mem_cons.1 h
          rw [renamed, renamed] at hname
          rw [write, write, ih hlater hrest, hname]
      | unclosed => cases hnames

/-- **Renaming depends only on the classes that are mentioned.** -/
theorem renameClasses_congr {first second : String → Option String} {descriptor : String}
    {names : List String} (hnames : references descriptor = .ok names)
    (h : ∀ name ∈ names, renamed first name = renamed second name) :
    renameClasses first descriptor = renameClasses second descriptor := by
  rw [renameClasses, renameClasses, write_congr hnames h]

-- ── Composition ──────────────────────────────────────────────────────────────

/-- Every new name can stand in a descriptor: it is not empty and holds no `;`. -/
def Nameable (rename : String → Option String) : Prop :=
  ∀ name new, rename name = some new → new ≠ "" ∧ ';' ∉ new.toList

section Composition

variable {first second : String → Option String} {descriptor out : String}

theorem Nameable.readable (h : Nameable first) {part : Part} (hpart : part.Readable) :
    (part.rename first).Readable := by
  cases part with
  | plain c => exact hpart
  | reference name =>
      rw [Part.rename, renamed]
      cases hnew : first name with
      | none => exact hpart
      | some new => exact (h name new hnew).2
  | unclosed => trivial

theorem Nameable.renamed_ne_empty (h : Nameable first) {name : String} (hname : name ≠ "") :
    renamed first name ≠ "" := by
  rw [renamed]
  cases hnew : first name with
  | none => exact hname
  | some new => exact (h name new hnew).1

/-- A renamed descriptor is read as the renamed parts. -/
theorem parts_renameClasses (hfirst : Nameable first)
    (h : renameClasses first descriptor = .ok out) :
    parts out = (parts descriptor).map (Part.rename first) := by
  obtain ⟨cs, hcs, rfl⟩ := Outcome.map_eq_ok.1 h
  rw [parts, String.toList_ofList]
  exact partsFrom_write (fun part hpart => hfirst.readable (readable_of_mem_parts part hpart)) hcs

/-- Parts that are renamed before they are written are written as if renamed by both. -/
theorem write_map_rename (hfirst : Nameable first) {parts : List Part}
    (hcomplete : ∀ part ∈ parts, part ≠ .unclosed ∧ part ≠ .reference "") :
    write second (parts.map (Part.rename first)) = write (followedBy first second) parts := by
  induction parts with
  | nil => rfl
  | cons part rest ih =>
      obtain ⟨hpart, hrest⟩ := List.forall_mem_cons.1 hcomplete
      rw [List.map_cons]
      cases part with
      | plain c => rw [Part.rename, write, write, ih hrest]
      | reference name =>
          have hname : name ≠ "" := fun h => hpart.2 (h ▸ rfl)
          have hnew := renamed_followedBy first second name
          rw [renamed, renamed] at hnew
          rw [Part.rename, write, write, if_neg (hfirst.renamed_ne_empty hname), if_neg hname,
            ih hrest, hnew]
      | unclosed => exact absurd rfl hpart.1

/-- **The references of a renamed descriptor** are those of the descriptor, renamed one by one. -/
theorem references_renameClasses (hfirst : Nameable first)
    (h : renameClasses first descriptor = .ok out) :
    ∃ names, references descriptor = .ok names
      ∧ references out = .ok (names.map (renamed first)) := by
  obtain ⟨names, hnames, -⟩ :=
    (complete_iff descriptor).1 ((exists_renameClasses_iff first descriptor).1 ⟨out, h⟩)
  refine ⟨names, hnames, ?_⟩
  rw [references] at hnames
  rw [references, parts_renameClasses hfirst h, namesIn_map_rename, hnames]
  rfl

/-- **Renaming twice** is renaming once, through both. -/
theorem renameClasses_renameClasses (hfirst : Nameable first)
    (h : renameClasses first descriptor = .ok out) (second : String → Option String) :
    renameClasses second out = renameClasses (followedBy first second) descriptor := by
  have hcomplete := (exists_renameClasses_iff first descriptor).1 ⟨out, h⟩
  rw [renameClasses, renameClasses, parts_renameClasses hfirst h,
    write_map_rename hfirst hcomplete]

end Composition

/-- **The algebra of renaming.** Renaming succeeds exactly when the references of the
    descriptor can be listed and none of them is empty, whatever the renaming. One that knows no
    class gives the descriptor back. If every new name can stand in a descriptor, the result
    mentions the new names in the place of the old, and to rename it once more is to rename the
    descriptor through both. -/
theorem renameClasses_algebra (first : String → Option String) (descriptor : String) :
    ((∃ out, renameClasses first descriptor = .ok out)
        ↔ ∃ names, references descriptor = .ok names ∧ "" ∉ names)
      ∧ ((∃ names, references descriptor = .ok names ∧ "" ∉ names) →
          renameClasses (fun _ => none) descriptor = .ok descriptor)
      ∧ (Nameable first → ∀ out, renameClasses first descriptor = .ok out →
          (∃ names, references descriptor = .ok names
            ∧ references out = .ok (names.map (renamed first)))
          ∧ ∀ second, renameClasses second out
              = renameClasses (followedBy first second) descriptor) := by
  refine ⟨(exists_renameClasses_iff first descriptor).trans (complete_iff descriptor),
    fun hnames => ?_, fun hfirst out hout => ?_⟩
  · have hfixed : ∀ name new : String, none = some new → new = name := fun _ _ h => nomatch h
    obtain ⟨out, hout⟩ :=
      (exists_renameClasses_iff (fun _ => none) descriptor).2 ((complete_iff descriptor).2 hnames)
    have hkept : out = descriptor := renameClasses_of_fixed hfixed hout
    exact hkept ▸ hout
  · exact ⟨references_renameClasses hfirst hout, renameClasses_renameClasses hfirst hout⟩

/-- A new name that looks like the start of a reference is read back and renamed again. -/
theorem renameClasses_algebra_odd_names :
    ∃ first second : String → Option String, Nameable first
      ∧ references "(La;[LLb;I)La;" = .ok ["a", "Lb", "a"]
      ∧ renameClasses first "(La;[LLb;I)La;" = .ok "(LL(x/L;[LLb;I)LL(x/L;"
      ∧ references "(LL(x/L;[LLb;I)LL(x/L;" = .ok ["L(x/L", "Lb", "L(x/L"]
      ∧ renameClasses second "(LL(x/L;[LLb;I)LL(x/L;" = .ok "(Ly;[LLb;I)Ly;"
      ∧ renameClasses (followedBy first second) "(La;[LLb;I)La;" = .ok "(Ly;[LLb;I)Ly;"
      ∧ renameClasses (fun _ => none) "(La;[LLb;I)La;" = .ok "(La;[LLb;I)La;" := by
  let first : String → Option String := fun name => if name = "a" then some "L(x/L" else none
  let second : String → Option String := fun name => if name = "L(x/L" then some "y" else none
  have hfirst : Nameable first := by
    intro name new hnew
    obtain ⟨-, hnew⟩ := Option.ite_none_right_eq_some.1 hnew
    obtain rfl := Option.some.inj hnew
    exact ⟨by decide, by decide⟩
  have hnames : references "(La;[LLb;I)La;" = .ok ["a", "Lb", "a"] := rfl
  have hout : renameClasses first "(La;[LLb;I)La;" = .ok "(LL(x/L;[LLb;I)LL(x/L;" := by
    decide +kernel
  have hagain : renameClasses second "(LL(x/L;[LLb;I)LL(x/L;" = .ok "(Ly;[LLb;I)Ly;" := by
    decide +kernel
  obtain ⟨-, hkept, hrenamed⟩ := renameClasses_algebra first "(La;[LLb;I)La;"
  obtain ⟨⟨names, hlisted, hreplaced⟩, htwice⟩ := hrenamed hfirst _ hout
  obtain rfl := Except.ok.inj (hnames.symm.trans hlisted)
  exact ⟨first, second, hfirst, hnames, hout, hreplaced, hagain, htwice second ▸ hagain,
    hkept ⟨_, hnames, by decide⟩⟩

end Nomenclator.Descriptor
