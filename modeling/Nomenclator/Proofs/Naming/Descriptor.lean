import Nomenclator.Naming.Descriptor
import Nomenclator.Proofs.Outcome

/-! # Descriptors — renaming the classes that they mention

    Reading a descriptor loses no character, so writing its parts back unchanged
    gives the descriptor again.  The induction runs along the reading; what has
    been read of an open reference is carried in front of the rest. -/

namespace Nomenclator.Descriptor

/-- The characters of the reference that is being read. -/
def pendingText : Option (List Char) → List Char
  | none => []
  | some name => 'L' :: name.reverse

/-- Writing the parts of a text through names that stay gives the text back, after what was
    pending. -/
theorem write_partsFrom_of_fixed {rename : String → Option String}
    (hfixed : ∀ name new, rename name = some new → new = name) :
    ∀ {pending : Option (List Char)} {cs out : List Char},
      write rename (partsFrom pending cs) = .ok out → out = pendingText pending ++ cs := by
  intro pending cs
  induction cs generalizing pending with
  | nil =>
      intro out h
      cases pending with
      | none => cases h; rfl
      | some name => exact nomatch h
  | cons c rest ih =>
      intro out h
      cases pending with
      | none =>
          by_cases hc : c = 'L'
          · rw [partsFrom, if_pos hc] at h
            rw [ih h, hc]
            rfl
          · rw [partsFrom, if_neg hc] at h
            obtain ⟨tail, htail, rfl⟩ := Outcome.map_eq_ok.1 h
            rw [ih htail]
            rfl
      | some name =>
          by_cases hc : c = ';'
          · rw [partsFrom, if_pos hc, write] at h
            by_cases hempty : String.ofList name.reverse = ""
            · rw [if_pos hempty] at h
              exact nomatch h
            · rw [if_neg hempty] at h
              obtain ⟨tail, htail, rfl⟩ := Outcome.map_eq_ok.1 h
              have hkept : (rename (String.ofList name.reverse)).getD (String.ofList name.reverse)
                  = String.ofList name.reverse := by
                cases hr : rename (String.ofList name.reverse) with
                | none => rfl
                | some new => exact hfixed _ _ hr
              rw [ih htail, hkept, String.toList_ofList, hc]
              rfl
          · rw [partsFrom, if_neg hc] at h
            rw [ih h]
            simp [pendingText]

/-- **Renaming through names that stay changes nothing.** -/
theorem renameClasses_of_fixed {rename : String → Option String} {descriptor out : String}
    (hfixed : ∀ name new, rename name = some new → new = name)
    (h : renameClasses rename descriptor = .ok out) : out = descriptor := by
  obtain ⟨cs, hcs, rfl⟩ := Outcome.map_eq_ok.1 h
  rw [write_partsFrom_of_fixed hfixed hcs]
  exact String.ofList_toList

/-- Every part leaves a character behind. -/
theorem write_eq_nil {rename : String → Option String} {parts : List Part}
    (h : write rename parts = .ok []) : parts = [] := by
  match parts, h with
  | [], _ => rfl
  | .plain c :: rest, h =>
      obtain ⟨tail, -, htail⟩ := Outcome.map_eq_ok.1 h
      exact nomatch htail
  | .reference name :: rest, h =>
      rw [write] at h
      by_cases hempty : name = ""
      · rw [if_pos hempty] at h
        exact nomatch h
      · rw [if_neg hempty] at h
        obtain ⟨tail, -, htail⟩ := Outcome.map_eq_ok.1 h
        exact nomatch htail
  | .unclosed :: rest, h => exact nomatch h

theorem partsFrom_eq_nil {pending : Option (List Char)} {cs : List Char}
    (h : partsFrom pending cs = []) : cs = [] := by
  induction cs generalizing pending with
  | nil => rfl
  | cons c rest ih =>
      cases pending with
      | none =>
          by_cases hc : c = 'L'
          · rw [partsFrom, if_pos hc] at h
            -- an open reference is a part even when nothing follows
            have hrest := ih h
            rw [hrest] at h
            exact nomatch h
          · rw [partsFrom, if_neg hc] at h
            exact nomatch h
      | some name =>
          by_cases hc : c = ';'
          · rw [partsFrom, if_pos hc] at h
            exact nomatch h
          · rw [partsFrom, if_neg hc] at h
            have hrest := ih h
            rw [hrest] at h
            exact nomatch h

/-- A descriptor that is not empty stays so. -/
theorem renameClasses_ne_empty {rename : String → Option String} {descriptor out : String}
    (h : renameClasses rename descriptor = .ok out) (hne : descriptor ≠ "") : out ≠ "" := by
  obtain ⟨cs, hcs, rfl⟩ := Outcome.map_eq_ok.1 h
  intro hempty
  have hnil : cs = [] := by
    rw [← String.toList_ofList (l := cs), hempty]
    rfl
  rw [hnil] at hcs
  have hchars : descriptor.toList = [] := partsFrom_eq_nil (write_eq_nil hcs)
  exact hne (String.toList_eq_nil_iff.1 hchars)

-- ── When renaming succeeds ───────────────────────────────────────────────────

/-- Every class reference is closed and names a class. -/
def Complete (descriptor : String) : Prop :=
  ∀ part ∈ parts descriptor, part ≠ .unclosed ∧ part ≠ .reference ""

instance (descriptor : String) : Decidable (Complete descriptor) :=
  inferInstanceAs (Decidable (∀ part ∈ parts descriptor, part ≠ .unclosed ∧ part ≠ .reference ""))

theorem exists_write_iff (rename : String → Option String) (parts : List Part) :
    (∃ out, write rename parts = .ok out)
      ↔ ∀ part ∈ parts, part ≠ .unclosed ∧ part ≠ .reference "" := by
  induction parts with
  | nil => exact ⟨fun _ part hpart => (nomatch hpart), fun _ => ⟨[], rfl⟩⟩
  | cons part rest ih =>
      have hmap : ∀ f : List Char → List Char,
          (∃ out, (write rename rest).map f = .ok out) ↔ ∃ out, write rename rest = .ok out := by
        intro f
        constructor
        · rintro ⟨out, hout⟩
          obtain ⟨tail, htail, -⟩ := Outcome.map_eq_ok.1 hout
          exact ⟨tail, htail⟩
        · rintro ⟨tail, htail⟩
          exact ⟨f tail, Outcome.map_eq_ok.2 ⟨tail, htail, rfl⟩⟩
      rw [List.forall_mem_cons, ← ih]
      cases part with
      | plain c =>
          rw [write, hmap]
          exact (and_iff_right ⟨Part.noConfusion, Part.noConfusion⟩).symm
      | reference name =>
          rw [write]
          by_cases hname : name = ""
          · rw [if_pos hname, hname]
            exact ⟨fun ⟨_, h⟩ => (nomatch h), fun h => absurd rfl h.1.2⟩
          · rw [if_neg hname, hmap]
            exact (and_iff_right ⟨Part.noConfusion, fun h => hname (Part.reference.inj h)⟩).symm
      | unclosed => exact ⟨fun ⟨_, h⟩ => (nomatch h), fun h => absurd rfl h.1.1⟩

/-- **Renaming succeeds exactly on complete descriptors**, whatever the names. -/
theorem exists_renameClasses_iff (rename : String → Option String) (descriptor : String) :
    (∃ out, renameClasses rename descriptor = .ok out) ↔ Complete descriptor := by
  rw [Complete, ← exists_write_iff rename]
  constructor
  · rintro ⟨out, hout⟩
    obtain ⟨cs, hcs, -⟩ := Outcome.map_eq_ok.1 hout
    exact ⟨cs, hcs⟩
  · rintro ⟨cs, hcs⟩
    exact ⟨String.ofList cs, Outcome.map_eq_ok.2 ⟨cs, hcs, rfl⟩⟩

end Nomenclator.Descriptor
