/-!
# Escaped names

A document may declare that its names and descriptors are escaped: a backslash followed
by one of `n t r 0 \` then stands for a line feed, tab, carriage return, NUL or
backslash. A backslash before any other character, or at the end, stands for itself.
-/

namespace Nomenclator.Naming.Escape

/-- The character that follows the backslash in the escaped form of a special character. -/
def mark : Char → Option Char
  | '\\' => some '\\'
  | '\n' => some 'n'
  | '\t' => some 't'
  | '\r' => some 'r'
  | '\x00' => some '0'
  | _ => none

/-- The character that an escape mark stands for. -/
def unmark : Char → Option Char
  | '\\' => some '\\'
  | 'n' => some '\n'
  | 't' => some '\t'
  | 'r' => some '\r'
  | '0' => some '\x00'
  | _ => none

/-- Writes a text without line feeds, tabs, carriage returns and NULs. -/
def encode : List Char → List Char
  | [] => []
  | c :: rest =>
    match mark c with
    | some m => '\\' :: m :: encode rest
    | none => c :: encode rest

/-- Reads an escaped text. -/
def decode : List Char → List Char
  | [] => []
  | '\\' :: m :: rest =>
    match unmark m with
    | some c => c :: decode rest
    | none => '\\' :: m :: decode rest
  | c :: rest => c :: decode rest

/-- Reading gives back what was written. -/
theorem decode_encode (text : List Char) : decode (encode text) = text := by
  induction text with
  | nil => rfl
  | cons c rest ih =>
    unfold encode
    split
    · next m hm =>
      have : unmark m = some c := by
        unfold mark at hm
        split at hm <;> simp_all <;> subst hm <;> rfl
      simp [decode, this, ih]
    · next hm =>
      have : c ≠ '\\' := fun h => by simp [h, mark] at hm
      rw [decode, ih]
      intro m r h
      simp_all

end Nomenclator.Naming.Escape
