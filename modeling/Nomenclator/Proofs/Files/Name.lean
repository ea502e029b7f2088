import Nomenclator.Files.Name
import Nomenclator.Proofs.Text.Utf8

/-! # Names — those that are texts

    A text spells one name, and the name shows the text (`lossy_ofText`).  So a name
    is a text exactly if some text spells it (`isText_iff`).  Of a name that is no text,
    what is shown holds a replacement (`eq_ofText_of_lossy`).  A text can be put after
    any name (`append`). -/

namespace Nomenclator.Files.Name

theorem octets_ofText (text : String) : (ofText text).octets = Text.encodeUtf8 text.toList := by
  rw [ofText, ← String.utf8Encode_toList, List.utf8Encode, List.data_toByteArray,
    List.toList_toArray, Text.encodeUtf8]

theorem length_ofText (text : String) : (ofText text).octets.length = text.utf8ByteSize := rfl

@[simp]
theorem lossy_ofText (text : String) : (ofText text).lossy = text := by
  rw [lossy, octets_ofText, Text.decodeLossy_encodeUtf8, String.ofList_toList]

@[simp]
theorem ofText_inj {text text' : String} : ofText text = ofText text' ↔ text = text' := by
  constructor
  · intro h
    rw [← lossy_ofText text, h, lossy_ofText]
  · exact congrArg ofText

theorem isText_ofText (text : String) : (ofText text).IsText :=
  congrArg ofText (lossy_ofText text)

theorem isText_iff {name : Name} : name.IsText ↔ ∃ text, name = ofText text := by
  constructor
  · exact fun h => ⟨name.lossy, h.symm⟩
  · rintro ⟨text, rfl⟩
    exact isText_ofText text

/-- Only the name that a text spells is shown as that text, unless it holds replacements. -/
theorem eq_ofText_of_lossy {name : Name} {text : String} (hno : '\uFFFD' ∉ text.toList)
    (h : name.lossy = text) : name = ofText text := by
  have hshown : Text.decodeLossy name.octets = text.toList := by
    rw [← h, lossy, String.toList_ofList]
  have hoctets := Text.encodeUtf8_decodeLossy (hshown ▸ hno)
  rw [hshown, ← octets_ofText] at hoctets
  exact ((Name.mk.injEq ..).mpr hoctets).symm

/-- Two names that texts spell, each in its directory. -/
theorem concat_ofText_inj {dir dir' : List Name} {text text' : String}
    (h : dir ++ [ofText text] = dir' ++ [ofText text']) : dir = dir' ∧ text = text' := by
  obtain ⟨hdir, hlast⟩ := List.append_inj' h rfl
  exact ⟨hdir, ofText_inj.1 (List.singleton_inj.1 hlast)⟩

theorem map_lossy_map_ofText (texts : List String) : (texts.map ofText).map lossy = texts := by
  calc (texts.map ofText).map lossy = texts.map (lossy ∘ ofText) := List.map_map
    _ = texts.map id := List.map_congr_left fun text _ => lossy_ofText text
    _ = texts := List.map_id texts

theorem map_ofText_map_lossy {names : List Name} (h : ∀ name ∈ names, name.IsText) :
    (names.map lossy).map ofText = names := by
  calc (names.map lossy).map ofText = names.map (ofText ∘ lossy) := List.map_map
    _ = names.map id := List.map_congr_left h
    _ = names := List.map_id names

/-- The name with a text after it. -/
def append (name : Name) (text : String) : Name := ⟨name.octets ++ (ofText text).octets⟩

theorem ofText_append (text later : String) : ofText (text ++ later) = (ofText text).append later := by
  rw [append, Name.mk.injEq, octets_ofText, octets_ofText, octets_ofText, String.toList_append,
    Text.encodeUtf8, List.flatMap_append, Text.encodeUtf8, Text.encodeUtf8]

@[simp]
theorem append_left_inj {name other : Name} {text : String} :
    name.append text = other.append text ↔ name = other := by
  rw [append, append, Name.mk.injEq, List.append_left_inj]
  cases name
  cases other
  exact (Name.mk.injEq ..).to_iff.symm

theorem append_ne_self (name : Name) {text : String} (h : text ≠ "") : name.append text ≠ name := by
  intro heq
  have hnil := List.append_right_eq_self.1 (congrArg octets heq)
  exact h (ofText_inj.1 ((Name.mk.injEq ..).mpr hnil))

end Nomenclator.Files.Name
