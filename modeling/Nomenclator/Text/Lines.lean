/-!
# Lines and cells — cutting a text at one character

`pieces` cuts at every occurrence of a separator, so it gives one piece more than there
are separators. Lines are pieces at the line feed: a carriage return directly before a
line feed belongs to the line end, and a text that ends in a line feed has no empty last
line. The last line of a text without a final line feed keeps its carriage return.
-/

namespace Nomenclator.Text

/-- The pieces between the characters that `sep` accepts; never the empty list. -/
def piecesWhere (sep : Char → Bool) : List Char → List (List Char)
  | [] => [[]]
  | c :: rest =>
    if sep c then [] :: piecesWhere sep rest
    else match piecesWhere sep rest with
      | [] => [[c]]
      | piece :: later => (c :: piece) :: later

theorem piecesWhere_ne_nil (sep : Char → Bool) (text : List Char) :
    piecesWhere sep text ≠ [] := by
  cases text with
  | nil => simp [piecesWhere]
  | cons c rest =>
    unfold piecesWhere
    split
    · simp
    · split <;> simp

/-- The pieces between the occurrences of one character. -/
def pieces (sep : Char) (text : List Char) : List (List Char) := piecesWhere (· == sep) text

/-- The cells of a row: its pieces between tabs, as strings. -/
def cells (row : List Char) : List String :=
  (pieces '\t' row).map String.ofList

/-- One carriage return at the end of a line that a line feed ended is part of that end. -/
def dropReturn (line : List Char) : List Char :=
  if line.getLast? = some '\r' then line.dropLast else line

/-- The lines that the pieces at the line feeds stand for. -/
def endLines : List (List Char) → List (List Char)
  | [] => []
  | [last] => if last.isEmpty then [] else [last]
  | line :: later => dropReturn line :: endLines later

/-- The lines of a text. -/
def lines (text : List Char) : List (List Char) :=
  endLines (pieces '\n' text)

/-- The lines of a text with their numbers, counted from one. -/
def numberedLines (text : List Char) : List (Nat × List Char) :=
  let all := lines text
  (List.range' 1 all.length).zip all

/-- The two parts around the first occurrence of `sep`, if there is one. -/
def splitOnce (sep : Char) : List Char → Option (List Char × List Char)
  | [] => none
  | c :: rest =>
    if c = sep then some ([], rest)
    else (splitOnce sep rest).map fun parts => (c :: parts.1, parts.2)

/-- Puts `sep` between the given pieces. -/
def joinWith (sep : List Char) : List (List Char) → List Char
  | [] => []
  | [last] => last
  | piece :: later => piece ++ sep ++ joinWith sep later

end Nomenclator.Text
