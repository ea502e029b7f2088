import Nomenclator.Toml.Value

/-!
# Configuration documents — scalars

Strings in four forms (basic and literal, on one line or on several), and unquoted
scalars: truth values, integers in four bases, numbers with a fraction or exponent, dates
and times. Readers of strings start after the opening quotes and give the text with the
rest of the input.
-/

namespace Nomenclator.Toml

/-- May the character stand in a comment or a string? Of the control characters only the tab
    may. -/
def isPrintable (c : Char) : Bool := c == '\t' || (0x20 ≤ c.toNat && c.toNat ≠ 0x7F)

/-- The character with a code point, which must not be a surrogate. -/
def charOf (code : Nat) : Option Char :=
  if code.isValidChar then some (Char.ofNat code) else none

/-- The character that a short escape stands for. -/
def shortEscape : Char → Option Char
  | 'b' => some '\x08'
  | 't' => some '\t'
  | 'n' => some '\n'
  | 'f' => some '\x0c'
  | 'r' => some '\r'
  | '"' => some '"'
  | '\\' => some '\\'
  | _ => none

/-- Reads an escape, after its backslash. -/
def readEscape : List Char → Option (Char × List Char)
  | 'u' :: rest => do
    if rest.length < 4 then none
    else
      let code ← Json.hexNumber (rest.take 4)
      let c ← charOf code
      return (c, rest.drop 4)
  | 'U' :: rest => do
    if rest.length < 8 then none
    else
      let code ← Json.hexNumber (rest.take 8)
      let c ← charOf code
      return (c, rest.drop 8)
  | mark :: rest => (shortEscape mark).map fun c => (c, rest)
  | [] => none

/-- Splits off a line end. -/
def readLineEnd : List Char → Option (List Char)
  | '\n' :: rest => some rest
  | '\r' :: '\n' :: rest => some rest
  | _ => none

/-- The text after blanks and tabs. -/
def skipBlanks (text : List Char) : List Char := text.dropWhile fun c => c == ' ' || c == '\t'

/-- The text after blanks, tabs and line ends. -/
def skipBlankLines : (fuel : Nat) → List Char → List Char
  | 0, text => text
  | fuel + 1, text =>
    let text := skipBlanks text
    match readLineEnd text with
    | some rest => skipBlankLines fuel rest
    | none => text

/-- Reads a basic string of one line. -/
def readBasic : (fuel : Nat) → List Char → Option (List Char × List Char)
  | 0, _ => none
  | fuel + 1, text =>
    match text with
    | '"' :: rest => some ([], rest)
    | '\\' :: rest => do
      let (c, rest) ← readEscape rest
      let (cs, rest) ← readBasic fuel rest
      return (c :: cs, rest)
    | c :: rest =>
      if isPrintable c then (readBasic fuel rest).map fun (cs, rest) => (c :: cs, rest) else none
    | [] => none

/-- Reads a literal string of one line. -/
def readLiteral : List Char → Option (List Char × List Char)
  | '\'' :: rest => some ([], rest)
  | c :: rest =>
    if isPrintable c then (readLiteral rest).map fun (cs, rest) => (c :: cs, rest) else none
  | [] => none

/-- The end of a string of several lines: up to two quotes may stand before the closing
    three. Gives the quotes that belong to the text. -/
def readClosing (quote : Char) (text : List Char) : Option (List Char × List Char) :=
  let count := min 5 (text.takeWhile (· == quote)).length
  if count < 3 then none else some (List.replicate (count - 3) quote, text.drop count)

/-- Reads a basic string of several lines. A backslash at the end of a line removes the line
    end and all blanks and line ends after it. -/
def readBasicLines : (fuel : Nat) → List Char → Option (List Char × List Char)
  | 0, _ => none
  | fuel + 1, text =>
    match readClosing '"' text with
    | some closed => some closed
    | none =>
      match text with
      | '\\' :: rest =>
        match readLineEnd (skipBlanks rest) with
        | some rest => readBasicLines fuel (skipBlankLines rest.length rest)
        | none => do
          let (c, rest) ← readEscape rest
          let (cs, rest) ← readBasicLines fuel rest
          return (c :: cs, rest)
      | c :: rest =>
        match readLineEnd text with
        | some rest => (readBasicLines fuel rest).map fun (cs, rest) => ('\n' :: cs, rest)
        | none =>
          if isPrintable c then
            (readBasicLines fuel rest).map fun (cs, rest) => (c :: cs, rest)
          else none
      | [] => none

/-- Reads a literal string of several lines. -/
def readLiteralLines : (fuel : Nat) → List Char → Option (List Char × List Char)
  | 0, _ => none
  | fuel + 1, text =>
    match readClosing '\'' text with
    | some closed => some closed
    | none =>
      match text with
      | c :: rest =>
        match readLineEnd text with
        | some rest => (readLiteralLines fuel rest).map fun (cs, rest) => ('\n' :: cs, rest)
        | none =>
          if isPrintable c then
            (readLiteralLines fuel rest).map fun (cs, rest) => (c :: cs, rest)
          else none
      | [] => none

/-- The text after one line end, if it starts with one. -/
def dropLineEnd (text : List Char) : List Char := (readLineEnd text).getD text

/-- Reads a string in any of the four forms. -/
def readString (text : List Char) : Option (String × List Char) :=
  let found := match text with
    | '"' :: '"' :: '"' :: rest => readBasicLines (rest.length + 1) (dropLineEnd rest)
    | '\'' :: '\'' :: '\'' :: rest => readLiteralLines (rest.length + 1) (dropLineEnd rest)
    | '"' :: rest => readBasic (rest.length + 1) rest
    | '\'' :: rest => readLiteral rest
    | _ => none
  found.map fun (cs, rest) => (String.ofList cs, rest)

-- ── Unquoted scalars ─────────────────────────────────────────────────────────

/-- Digits with single underscores between them; gives the digits alone. -/
def groupedDigits (isDigit : Char → Bool) : List Char → Option (List Char)
  | [] => none
  | [d] => if isDigit d then some [d] else none
  | d :: '_' :: rest => if isDigit d then (groupedDigits isDigit rest).map (d :: ·) else none
  | d :: rest => if isDigit d then (groupedDigits isDigit rest).map (d :: ·) else none

/-- A decimal number without sign: no superfluous leading zero. -/
def decimalDigits (text : List Char) : Option (List Char) := do
  let digits ← groupedDigits (isDigitIn 10) text
  if digits.head? = some '0' ∧ digits.length ≠ 1 then none else some digits

/-- The text without a leading sign; the flag says whether it was a minus. -/
def dropSign : List Char → Bool × List Char
  | '+' :: rest => (false, rest)
  | '-' :: rest => (true, rest)
  | text => (false, text)

/-- The integers of 64 bits. -/
def inRange (i : Int) : Bool := Int64.minValue.toInt ≤ i && i ≤ Int64.maxValue.toInt

/-- Reads an integer. -/
def integer? (text : List Char) : Option Int := do
  let value ← match text with
    | '0' :: 'x' :: digits =>
      (groupedDigits (isDigitIn 16) digits).map fun ds => (valueIn 16 ds : Int)
    | '0' :: 'o' :: digits =>
      (groupedDigits (isDigitIn 8) digits).map fun ds => (valueIn 8 ds : Int)
    | '0' :: 'b' :: digits =>
      (groupedDigits (isDigitIn 2) digits).map fun ds => (valueIn 2 ds : Int)
    | text =>
      let (negative, digits) := dropSign text
      (decimalDigits digits).map fun ds =>
        let value : Int := valueIn 10 ds
        if negative then -value else value
  if inRange value then some value else none

/-- A number with a fraction or an exponent, as it is written: digits, and the power of ten
    with which they count. -/
structure Fractional where
  negative : Bool
  digits : List Char
  exponent : Int
  deriving DecidableEq, Repr

/-- Reads the digits of an exponent, after its letter. -/
def exponent? (text : List Char) : Option Int :=
  let (negative, digits) := dropSign text
  (groupedDigits (isDigitIn 10) digits).map fun ds =>
    let value : Int := valueIn 10 ds
    if negative then -value else value

/-- Reads a number with a fraction, an exponent or both. -/
def fractional? (text : List Char) : Option Fractional := do
  let (negative, body) := dropSign text
  let mantissa := body.takeWhile fun c => c != 'e' && c != 'E'
  let whole := mantissa.takeWhile (· != '.')
  let wholeDigits ← decimalDigits whole
  let places ← match mantissa.drop whole.length with
    | [] => some []
    | _ :: digits => groupedDigits (isDigitIn 10) digits
  let exponent ← match body.drop mantissa.length with
    | [] => if places.isEmpty then none else some 0
    | _ :: signed => exponent? signed
  return { negative, digits := wholeDigits ++ places, exponent := exponent - places.length }

/-- The first magnitude that a float of 64 bits cannot hold: half a unit in the last place
    beyond the greatest finite one. -/
def floatBound : Nat := ((1 <<< 54) - 1) <<< 970

/-- Is the magnitude beyond the range of floats of 64 bits? The bound has 309 decimal places
    before the point, so only numbers of that size are compared with it. -/
def Fractional.overflows (f : Fractional) : Bool :=
  let digits := f.digits.dropWhile (· == '0')
  let places := f.exponent + digits.length
  if digits.isEmpty || places < 309 then false
  else if 309 < places then true
  else
    let shift := f.exponent.natAbs
    if 0 ≤ f.exponent then floatBound ≤ valueIn 10 digits * Nat.pow 10 shift
    else floatBound * Nat.pow 10 shift ≤ valueIn 10 digits

/-- Is the text an infinity or no number, in words? -/
def isFloatWord (text : List Char) : Bool :=
  let (_, word) := dropSign text
  word = "inf".toList || word = "nan".toList

/-- Is the text a number with a fraction or an exponent, an infinity or no number? A number
    that is too great is refused; one that is too small counts as an infinity. -/
def isFloat (text : List Char) : Bool :=
  isFloatWord text || match fractional? text with
    | some f => f.negative || !f.overflows
    | none => false

/-- Does the character end an unquoted scalar? -/
def endsScalar (c : Char) : Bool :=
  c == ' ' || c == '\t' || c == '\n' || c == '\r' || c == ',' || c == ']' || c == '\x7d' || c == '#'

/-- Splits off the characters of an unquoted scalar. One blank may stand between a date and a
    time. -/
def takeScalar (text : List Char) : List Char × List Char :=
  let word := text.takeWhile (!endsScalar ·)
  let rest := text.drop word.length
  match rest with
  | ' ' :: d :: later =>
    if (date? word).isSome && d.isDigit then
      let time := (d :: later).takeWhile (!endsScalar ·)
      (word ++ ' ' :: time, (d :: later).drop time.length)
    else (word, rest)
  | _ => (word, rest)

/-- The value of an unquoted scalar. -/
def scalar? (text : List Char) : Option Value :=
  if text = "true".toList then some (.boolean true)
  else if text = "false".toList then some (.boolean false)
  else match integer? text with
    | some i => some (.integer i)
    | none =>
      match moment? text with
      | some m => some (.moment m)
      | none => if isFloat text then some .float else none

end Nomenclator.Toml
