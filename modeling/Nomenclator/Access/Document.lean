import Nomenclator.Access.Overrides
import Nomenclator.Text.Blank

/-!
# Access documents

A document is a header and one override per line. A `#` and what follows it on a line is
a comment; lines without words are skipped; words are separated by blank characters.
`parse` reads a document and `render` writes one, in the order of `Overrides.entries`.
-/

namespace Nomenclator.Access

/-- The words of a line before its comment. -/
def lineWords (line : List Char) : List String :=
  (Text.words (line.takeWhile (· ≠ '#'))).map String.ofList

/-- The words that may start a header; the first is the one that is written. -/
def headerWords : List String := ["accessWidener", "accessEscalator"]

/-- The version that is read and written. -/
def formatVersion : String := "v1"

/-- Reads the header: the namespace of the document. -/
def readHeader (line : Nat) (words : List String) : Except Error Overrides :=
  match words with
  | [word, version, label] =>
    if word ∉ headerWords then .error (.parse line .badHeader)
    else if version ≠ formatVersion then .error (.parse line (.unsupportedVersion version))
    else .ok { label }
  | _ => .error (.parse line .badHeader)

/-- Reads what an override is about: the words after the visibility. `count` is the number of
    words on the line. -/
def readSubject (line count : Nat) (words : List String) : Except Error Subject :=
  match words with
  | ["class", name] => .ok (.ofClass name)
  | ["method", owner, name, descriptor] => .ok (.ofMember .method { owner, name, descriptor })
  | ["field", owner, name, descriptor] => .ok (.ofMember .field { owner, name, descriptor })
  | word :: _ =>
    if word = "class" ∨ word = "method" ∨ word = "field" then
      .error (.parse line (.entryColumns word count))
    else .error (.parse line (.unknownEntry word))
  | [] => .error (.parse line (.unknownEntry ""))

/-- Reads one override from the words of a line. -/
def readEntry (line : Nat) (words : List String) : Except Error (Subject × Visibility) :=
  let first := words.headD ""
  match Visibility.ofWord? first with
  | none => .error (.parse line (.unknownVisibility first))
  | some visibility =>
    (readSubject line words.length (words.drop 1)).map fun subject => (subject, visibility)

/-- Reads one line after the header. -/
def readLine (o : Overrides) (entry : Nat × List Char) : Except Error Overrides :=
  let words := lineWords entry.2
  if words.isEmpty then .ok o
  else do
    let (subject, visibility) ← readEntry entry.1 words
    o.add subject visibility

/-- Reads the numbered lines of a document. -/
def readLines : List (Nat × List Char) → Except Error Overrides
  | [] => .error (.parse 1 .missingHeader)
  | (line, text) :: later =>
    let words := lineWords text
    if words.isEmpty then readLines later
    else do
      let start ← readHeader line words
      later.foldlM readLine start

/-- Reads a document. -/
def parse (text : String) : Except Error Overrides := readLines (Text.numberedLines text.toList)

/-- One line of a document. -/
def renderEntry (entry : Subject × Visibility) : String :=
  let word := entry.2.word
  match entry.1 with
  | .ofClass name => s!"{word}\tclass\t{name}\n"
  | .ofMember kind member =>
    let noun := kind.noun
    let owner := member.owner
    let name := member.name
    let descriptor := member.descriptor
    s!"{word}\t{noun}\t{owner}\t{name}\t{descriptor}\n"

/-- Writes a document. -/
def render (o : Overrides) : String :=
  let word := headerWords.headD ""
  let label := o.label
  s!"{word}\t{formatVersion}\t{label}\n" ++ String.join (o.entries.map renderEntry)

end Nomenclator.Access
