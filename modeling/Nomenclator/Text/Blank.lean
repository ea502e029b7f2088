import Nomenclator.Text.Lines

/-!
# Blank characters — the property that separates words

A character is *blank* when Unicode gives it the property `White_Space`. The table
lists the 25 characters as closed ranges of code points. Zero-width characters
(`U+200B`, `U+FEFF`) and the information separators (`U+001C` … `U+001F`) are not
blank.
-/

namespace Nomenclator.Text

/-- The closed ranges of code points that hold the blank characters, in order. -/
def blankRanges : List (Nat × Nat) :=
  [(0x0009, 0x000D), (0x0020, 0x0020), (0x0085, 0x0085), (0x00A0, 0x00A0), (0x1680, 0x1680),
   (0x2000, 0x200A), (0x2028, 0x2029), (0x202F, 0x202F), (0x205F, 0x205F), (0x3000, 0x3000)]

/-- Does the character separate words? -/
def isBlank (c : Char) : Bool :=
  blankRanges.any fun range => range.1 ≤ c.toNat && c.toNat ≤ range.2

/-- The text without the blank characters at its two ends. -/
def trim (text : List Char) : List Char :=
  ((text.dropWhile isBlank).reverse.dropWhile isBlank).reverse

/-- The maximal runs of characters that are not blank, in order. -/
def words (text : List Char) : List (List Char) :=
  (piecesWhere isBlank text).filter fun word => !word.isEmpty

/-- The table holds 25 characters. -/
example :
    blankRanges.foldl (fun count range => count + (range.2 + 1 - range.1)) 0 = 25 := by decide

end Nomenclator.Text
