/-!
# Symbols — classes, fields and methods, and how they are identified

A class is identified by its name. A member is identified inside its class by name and
descriptor (`MemberKey`), and in a whole archive by these two and the name of its owner
(`MemberRef`). Both are ordered by their parts, from left to right.
-/

namespace Nomenclator

/-- The two kinds of class members. -/
inductive MemberKind where
  | field
  | method
  deriving DecidableEq, Repr

/-- The kind in a sentence. -/
def MemberKind.noun : MemberKind → String
  | .field => "field"
  | .method => "method"

/-- The kinds of symbols. -/
inductive SymbolKind where
  | ofClass
  | ofMember (kind : MemberKind)
  deriving DecidableEq, Repr

/-- The kind in a sentence. -/
def SymbolKind.noun : SymbolKind → String
  | .ofClass => "class"
  | .ofMember kind => kind.noun

/-- The identity of a member inside its class. -/
structure MemberKey where
  name : String
  descriptor : String
  deriving DecidableEq, Repr

instance : Ord MemberKey where
  compare := compareLex (compareOn MemberKey.name) (compareOn MemberKey.descriptor)

instance : Std.TransOrd MemberKey :=
  inferInstanceAs (Std.TransCmp (compareLex (compareOn MemberKey.name)
    (compareOn MemberKey.descriptor)))

instance : Std.LawfulEqOrd MemberKey where
  eq_of_compare {a b} h := by
    obtain ⟨h₁, h₂⟩ := Ordering.then_eq_eq.1 h
    cases a; cases b
    simp only [MemberKey.mk.injEq]
    exact ⟨Std.LawfulEqOrd.eq_of_compare h₁, Std.LawfulEqOrd.eq_of_compare h₂⟩

/-- The identity of a member: the class that declares it, its name and its descriptor. -/
structure MemberRef where
  owner : String
  name : String
  descriptor : String
  deriving DecidableEq, Repr

instance : Ord MemberRef where
  compare := compareLex (compareOn MemberRef.owner)
    (compareLex (compareOn MemberRef.name) (compareOn MemberRef.descriptor))

instance : Std.TransOrd MemberRef :=
  inferInstanceAs (Std.TransCmp (compareLex (compareOn MemberRef.owner)
    (compareLex (compareOn MemberRef.name) (compareOn MemberRef.descriptor))))

instance : Std.LawfulEqOrd MemberRef where
  eq_of_compare {a b} h := by
    obtain ⟨h₁, h'⟩ := Ordering.then_eq_eq.1 h
    obtain ⟨h₂, h₃⟩ := Ordering.then_eq_eq.1 h'
    cases a; cases b
    simp only [MemberRef.mk.injEq]
    exact ⟨Std.LawfulEqOrd.eq_of_compare h₁, Std.LawfulEqOrd.eq_of_compare h₂,
      Std.LawfulEqOrd.eq_of_compare h₃⟩

/-- The member in a sentence: `owner.name` followed by the descriptor. -/
def MemberRef.text (m : MemberRef) : String := m.owner ++ "." ++ m.name ++ m.descriptor

end Nomenclator
