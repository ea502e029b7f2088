import Nomenclator.Text.Utf8

/-!
# Names — what a directory calls its entries

A file system keeps names as octets. Most of them are texts in UTF-8, and a path, which is a
text, can only lead to such names. Other octets come to light where a directory is listed;
shown as a text (`lossy`), they have replacement characters for what is no UTF-8, so that
different names can be shown alike.
-/

namespace Nomenclator.Files

/-- A name of an entry. -/
structure Name where
  octets : Bytes
  deriving DecidableEq, Repr

namespace Name

/-- The name that a text spells. -/
def ofText (text : String) : Name := ⟨text.toByteArray.data.toList⟩

instance : Coe String Name := ⟨ofText⟩

/-- Names are in the order of their octets. -/
instance : Ord Name := ⟨fun a b => compare a.octets b.octets⟩

instance : Std.TransOrd Name where
  eq_swap := Std.OrientedOrd.eq_swap (α := Bytes)
  isLE_trans := Std.TransOrd.isLE_trans (α := Bytes)

instance : Std.LawfulEqOrd Name where
  compare_self := Std.ReflOrd.compare_self (α := Bytes)
  eq_of_compare {a b} h := by
    cases a
    cases b
    exact congrArg mk (Std.LawfulEqOrd.eq_of_compare h)

/-- The name as a text, with a replacement character for every sequence of octets that stands
    for no character. -/
def lossy (name : Name) : String := String.ofList (Text.decodeLossy name.octets)

/-- The name is spelled as it is shown. -/
def IsText (name : Name) : Prop := ofText name.lossy = name

instance (name : Name) : Decidable name.IsText := inferInstanceAs (Decidable (_ = _))

end Name

end Nomenclator.Files
