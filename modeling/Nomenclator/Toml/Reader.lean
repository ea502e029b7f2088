import Nomenclator.Toml.Scalar

/-!
# Configuration documents — reading

A document is a sequence of lines: empty, a comment, a key with its value, a table header
or a header of one more table in a list. Keys are dotted lists of bare or quoted parts.
Arrays may span lines and hold comments; inline tables may not.
-/

namespace Nomenclator.Toml

/-- May the character stand in a bare key? -/
def isBareKey (c : Char) : Bool :=
  ('a' ≤ c && c ≤ 'z') || ('A' ≤ c && c ≤ 'Z') || c.isDigit || c == '_' || c == '-'

/-- Reads one part of a key. -/
def readPart (text : List Char) : Option (String × List Char) :=
  match text with
  | '"' :: rest => (readBasic (rest.length + 1) rest).map fun (cs, rest) => (String.ofList cs, rest)
  | '\'' :: rest => (readLiteral rest).map fun (cs, rest) => (String.ofList cs, rest)
  | text =>
    let part := text.takeWhile isBareKey
    if part.isEmpty then none else some (String.ofList part, text.drop part.length)

/-- Reads the parts of a dotted key; blanks may stand around its dots and at its ends. -/
def readParts : (fuel : Nat) → List Char → Option (List String × List Char)
  | 0, _ => none
  | fuel + 1, text => do
    let (part, rest) ← readPart (skipBlanks text)
    match skipBlanks rest with
    | '.' :: rest =>
      let (later, rest) ← readParts fuel rest
      return (part :: later, rest)
    | rest => return ([part], rest)

/-- Keys have fewer parts than this, and values lie within fewer arrays and inline tables. -/
def nestingLimit : Nat := 80

/-- Reads a dotted key. -/
def readKey (text : List Char) : Option (List String × List Char) := do
  let (key, rest) ← readParts (text.length + 1) text
  if key.length < nestingLimit then some (key, rest) else none

/-- The text after a comment, if it starts with one; the comment ends before the line end. -/
def skipComment (text : List Char) : Option (List Char) :=
  match text with
  | '#' :: rest =>
    let comment := rest.takeWhile fun c => c != '\n' && c != '\r'
    if comment.all isPrintable then some (rest.drop comment.length) else none
  | text => some text

/-- The text after blanks, comments and line ends. -/
def skipFiller : (fuel : Nat) → List Char → Option (List Char)
  | 0, _ => none
  | fuel + 1, text => do
    let rest ← skipComment (skipBlanks text)
    match readLineEnd rest with
    | some rest => skipFiller fuel rest
    | none => return rest

mutual

/-- Reads a value; `depth` is the number of arrays and inline tables around it. -/
def readValue : (fuel depth : Nat) → List Char → Option (Value × List Char)
  | 0, _, _ => none
  | fuel + 1, depth, text =>
    match text with
    | '"' :: _ => (readString text).map fun (s, rest) => (.text s, rest)
    | '\'' :: _ => (readString text).map fun (s, rest) => (.text s, rest)
    | '[' :: rest => do
      if nestingLimit ≤ depth + 1 then none
      else
        let (items, rest) ← readItems fuel (depth + 1) rest
        return (.array items, rest)
    | '\x7b' :: rest => do
      if nestingLimit ≤ depth + 1 then none
      else match skipBlanks rest with
        | '\x7d' :: rest => return (.table .inline [], rest)
        | rest =>
          let (entries, rest) ← readInline fuel (depth + 1) [] rest
          return (.table .inline entries, rest)
    | text =>
      let (word, rest) := takeScalar text
      (scalar? word).map fun value => (value, rest)

/-- Reads the items of an array up to its end. -/
def readItems : (fuel depth : Nat) → List Char → Option (List Value × List Char)
  | 0, _, _ => none
  | fuel + 1, depth, text => do
    match ← skipFiller (text.length + 1) text with
    | ']' :: rest => return ([], rest)
    | text =>
      let (item, rest) ← readValue fuel depth text
      match ← skipFiller (rest.length + 1) rest with
      | ',' :: rest =>
        let (items, rest) ← readItems fuel depth rest
        return (item :: items, rest)
      | ']' :: rest => return ([item], rest)
      | _ => none

/-- Reads the entries of an inline table up to its end; there is at least one more. -/
def readInline : (fuel depth : Nat) → Entries → List Char → Option (Entries × List Char)
  | 0, _, _, _ => none
  | fuel + 1, depth, entries, text => do
    let (key, rest) ← readKey text
    match rest with
    | '=' :: rest =>
      let (value, rest) ← readValue fuel depth (skipBlanks rest)
      let entries ← insertKey key value entries
      match skipBlanks rest with
      | ',' :: rest => readInline fuel depth entries rest
      | '\x7d' :: rest => return (entries, rest)
      | _ => none
    | _ => none

end

/-- What has been read: the tree, and the path of the table whose header came last. -/
structure Reading where
  root : Entries := []
  path : List String := []
  deriving Repr

/-- The rest after what may follow on a line: blanks, a comment and the line end. -/
def endLine (text : List Char) : Option (List Char) := do
  let rest ← skipComment (skipBlanks text)
  match rest with
  | [] => return []
  | rest => readLineEnd rest

/-- Reads a header after its brackets, up to the closing ones. -/
def readHeader (closing : List Char) (text : List Char) : Option (List String × List Char) := do
  let (key, rest) ← readKey text
  if rest.take closing.length = closing then endLine (rest.drop closing.length) |>.map (key, ·)
  else none

/-- Opens the table of a header with `opening`, and makes it the current one. -/
def Reading.goTo (r : Reading) (opening : String → Entries → Option Entries) (key : List String) :
    Option Reading := do
  let last ← key.getLast?
  let root ← changeAt (opening last) key.dropLast r.root
  return { root, path := key }

/-- Reads one line. -/
def readLine (r : Reading) (text : List Char) : Option (Reading × List Char) := do
  match skipBlanks text with
  | '[' :: '[' :: rest =>
    let (key, rest) ← readHeader [']', ']'] rest
    return (← r.goTo openItem key, rest)
  | '[' :: rest =>
    let (key, rest) ← readHeader [']'] rest
    return (← r.goTo openTable key, rest)
  | text =>
    match endLine text with
    | some rest => return (r, rest)
    | none =>
      let (key, rest) ← readKey text
      match rest with
      | '=' :: rest =>
        let (value, rest) ← readValue (2 * rest.length + 2) 0 (skipBlanks rest)
        let root ← changeAt (insertKey key value) r.path r.root
        return ({ r with root }, ← endLine rest)
      | _ => none

/-- Reads line after line to the end. -/
def readLines : (fuel : Nat) → Reading → List Char → Option Reading
  | 0, _, _ => none
  | _ + 1, r, [] => some r
  | fuel + 1, r, text => do
    let (r, rest) ← readLine r text
    readLines fuel r rest

/-- Reads a document; a byte order mark at its start is skipped. -/
def read (text : String) : Option Entries :=
  let chars := match text.toList with
    | '\uFEFF' :: rest => rest
    | chars => chars
  (readLines (chars.length + 1) {} chars).map Reading.root

end Nomenclator.Toml
