import Nomenclator.Text.Utf8

/-!
# JSON — reading data, and writing strings

Reading works on octets, and looks inside a string only where its value is needed: a
string whose octets or escapes form no text is a value without text, and becomes an error
only when a text is asked for. Of numbers only the unsigned integers keep their value.
Objects keep their entries in order, repeated keys included.
-/

namespace Nomenclator.Json

/-- A JSON value. -/
inductive Value where
  | null
  | boolean (b : Bool)
  | natural (n : Nat)
  | otherNumber
  | string (text : Option String)
  | array (items : List Value)
  | object (entries : List (Option String × Value))
  deriving Repr

/-- The text of a string value. -/
def Value.text? : Value → Option String
  | .string text => text
  | _ => none

/-- The texts of an array of string values. -/
def Value.texts? : Value → Option (List String)
  | .array items => items.mapM Value.text?
  | _ => none

/-- The value of an unsigned integer of 64 bits. -/
def Value.word? : Value → Option UInt64
  | .natural n => if n < UInt64.size then some (UInt64.ofNat n) else none
  | _ => none

-- ── Strings ──────────────────────────────────────────────────────────────────

/-- What stands between the quotes: an octet, or a UTF-16 unit written as an escape. -/
inductive Piece where
  | octet (c : Char)
  | unit (u : Nat)
  deriving DecidableEq, Repr

/-- The value of a hexadecimal digit. -/
def hexValue (c : Char) : Option Nat :=
  if c.isDigit then some (c.toNat - '0'.toNat)
  else if 'a' ≤ c ∧ c ≤ 'f' then some (c.toNat - 'a'.toNat + 10)
  else if 'A' ≤ c ∧ c ≤ 'F' then some (c.toNat - 'A'.toNat + 10)
  else none

/-- The value of a run of hexadecimal digits. -/
def hexNumber (digits : List Char) : Option Nat :=
  digits.foldlM (fun value c => (hexValue c).map (value * 16 + ·)) 0

/-- The character that a short escape stands for. -/
def shortEscape : Char → Option Char
  | '"' => some '"'
  | '\\' => some '\\'
  | '/' => some '/'
  | 'b' => some '\x08'
  | 'f' => some '\x0c'
  | 'n' => some '\n'
  | 'r' => some '\r'
  | 't' => some '\t'
  | _ => none

/-- Reads up to the closing quote. -/
def readPieces : List Char → Option (List Piece × List Char)
  | [] => none
  | '"' :: rest => some ([], rest)
  | '\\' :: 'u' :: a :: b :: c :: d :: rest => do
    let unit ← hexNumber [a, b, c, d]
    let (pieces, rest) ← readPieces rest
    return (.unit unit :: pieces, rest)
  | '\\' :: mark :: rest => do
    let c ← shortEscape mark
    let (pieces, rest) ← readPieces rest
    return (.octet c :: pieces, rest)
  | c :: rest =>
    if c = '\\' ∨ c.toNat < 0x20 then none
    else do
      let (pieces, rest) ← readPieces rest
      return (.octet c :: pieces, rest)

/-- The octets that the pieces stand for; a surrogate without its partner stands for none. -/
def octetsOf : List Piece → Option Bytes
  | [] => some []
  | .octet c :: rest => (octetsOf rest).map (UInt8.ofNat c.toNat :: ·)
  | .unit high :: rest =>
    if 0xDC00 ≤ high ∧ high ≤ 0xDFFF then none
    else if 0xD800 ≤ high ∧ high ≤ 0xDBFF then
      match rest with
      | .unit low :: rest =>
        if 0xDC00 ≤ low ∧ low ≤ 0xDFFF then
          let code := 0x10000 + (high - 0xD800) * 0x400 + (low - 0xDC00)
          (octetsOf rest).map (String.utf8EncodeChar (Char.ofNat code) ++ ·)
        else none
      | _ => none
    else (octetsOf rest).map (String.utf8EncodeChar (Char.ofNat high) ++ ·)

/-- The text that the pieces form, if they form one. -/
def textOf (pieces : List Piece) : Option String :=
  match (octetsOf pieces).map Text.decodeUtf8 with
  | some (.ok text) => some (String.ofList text)
  | _ => none

-- ── Values ───────────────────────────────────────────────────────────────────

/-- The text after blanks, tabs and line ends. -/
def skipBlanks (text : List Char) : List Char :=
  text.dropWhile fun c => c == ' ' || c == '\n' || c == '\t' || c == '\r'

/-- Splits off a run of digits, which must not be empty. -/
def readDigits (text : List Char) : Option (List Char × List Char) :=
  let digits := text.takeWhile Char.isDigit
  if digits.isEmpty then none else some (digits, text.dropWhile Char.isDigit)

/-- Splits off a fraction; the flag says whether there is one. -/
def readFraction : List Char → Option (Bool × List Char)
  | '.' :: rest => (readDigits rest).map fun (_, rest) => (true, rest)
  | rest => some (false, rest)

/-- Splits off an exponent; the flag says whether there is one. -/
def readExponent : List Char → Option (Bool × List Char)
  | c :: rest =>
    if c = 'e' ∨ c = 'E' then
      let digits := match rest with
        | '+' :: rest | '-' :: rest => rest
        | rest => rest
      (readDigits digits).map fun (_, rest) => (true, rest)
    else some (false, c :: rest)
  | [] => some (false, [])

/-- The number that a run of digits writes. -/
def valueOfDigits (digits : List Char) : Nat :=
  digits.foldl (fun value c => value * 10 + (c.toNat - '0'.toNat)) 0

/-- Reads a number: no superfluous leading zero, digits on both sides of a point. -/
def readNumber (text : List Char) : Option (Value × List Char) := do
  let (negative, text) := match text with
    | '-' :: rest => (true, rest)
    | text => (false, text)
  let (digits, text) ← readDigits text
  if digits.head? = some '0' ∧ digits.length ≠ 1 then none
  else
    let (fraction, text) ← readFraction text
    let (exponent, text) ← readExponent text
    let value := if negative || fraction || exponent then .otherNumber
      else .natural (valueOfDigits digits)
    return (value, text)

mutual

/-- Reads one value. -/
def readValue : (fuel : Nat) → List Char → Option (Value × List Char)
  | 0, _ => none
  | fuel + 1, text =>
    match skipBlanks text with
    | 'n' :: 'u' :: 'l' :: 'l' :: rest => some (.null, rest)
    | 't' :: 'r' :: 'u' :: 'e' :: rest => some (.boolean true, rest)
    | 'f' :: 'a' :: 'l' :: 's' :: 'e' :: rest => some (.boolean false, rest)
    | '"' :: rest => (readPieces rest).map fun (pieces, rest) => (.string (textOf pieces), rest)
    | '[' :: rest =>
      match skipBlanks rest with
      | ']' :: rest => some (.array [], rest)
      | rest => (readItems fuel rest).map fun (items, rest) => (.array items, rest)
    | '\x7b' :: rest =>
      match skipBlanks rest with
      | '\x7d' :: rest => some (.object [], rest)
      | rest => (readEntries fuel rest).map fun (entries, rest) => (.object entries, rest)
    | rest => readNumber rest

/-- Reads the items of an array up to its end; there is at least one. -/
def readItems : (fuel : Nat) → List Char → Option (List Value × List Char)
  | 0, _ => none
  | fuel + 1, text => do
    let (item, text) ← readValue fuel text
    match skipBlanks text with
    | ',' :: rest =>
      let (items, rest) ← readItems fuel rest
      return (item :: items, rest)
    | ']' :: rest => return ([item], rest)
    | _ => none

/-- Reads the entries of an object up to its end; there is at least one. -/
def readEntries : (fuel : Nat) → List Char → Option (List (Option String × Value) × List Char)
  | 0, _ => none
  | fuel + 1, text =>
    match skipBlanks text with
    | '"' :: rest => do
      let (key, text) ← readPieces rest
      match skipBlanks text with
      | ':' :: rest => do
        let (value, text) ← readValue fuel rest
        match skipBlanks text with
        | ',' :: rest =>
          let (entries, rest) ← readEntries fuel rest
          return ((textOf key, value) :: entries, rest)
        | '\x7d' :: rest => return ([(textOf key, value)], rest)
        | _ => none
      | _ => none
    | _ => none

end

/-- Reads a document: one value, with nothing but blanks around it. -/
def read (bytes : Bytes) : Option Value :=
  let text := bytes.map fun b => Char.ofNat b.toNat
  match readValue (2 * text.length + 2) text with
  | some (value, rest) => if (skipBlanks rest).isEmpty then some value else none
  | none => none

-- ── Writing ──────────────────────────────────────────────────────────────────

/-- One character of a written string. -/
def quoteChar (c : Char) : List Char :=
  match c with
  | '"' => ['\\', '"']
  | '\\' => ['\\', '\\']
  | '\x08' => ['\\', 'b']
  | '\x0c' => ['\\', 'f']
  | '\n' => ['\\', 'n']
  | '\r' => ['\\', 'r']
  | '\t' => ['\\', 't']
  | c =>
    if c.toNat < 0x20 then
      ['\\', 'u', '0', '0', Nat.digitChar (c.toNat / 16), Nat.digitChar (c.toNat % 16)]
    else [c]

/-- A text as a JSON string. -/
def quote (text : String) : String :=
  String.ofList ('"' :: text.toList.flatMap quoteChar ++ ['"'])

/-- A list of texts as an indented JSON array whose closing bracket stands at the given
    indentation. -/
def quoteList (indent : String) (texts : List String) : String :=
  if texts.isEmpty then "[]"
  else
    let items := texts.map fun text => indent ++ "  " ++ quote text
    "[\n" ++ ",\n".intercalate items ++ "\n" ++ indent ++ "]"

end Nomenclator.Json
