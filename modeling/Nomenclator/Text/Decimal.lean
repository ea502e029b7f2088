/-!
# Unsigned decimal numbers with an upper limit

A number is a non-empty run of ASCII digits, optionally after one `+`. Reading goes from
left to right and stops at the first fault: at a character that is no digit, or as soon
as the value passes the limit.
-/

namespace Nomenclator.Text

/-- Why a text is not a number. -/
inductive DecimalFault where
  | empty
  | invalidDigit
  | tooLarge
  deriving DecidableEq, Repr

/-- The fault in words. -/
def DecimalFault.message : DecimalFault → String
  | .empty => "cannot parse integer from empty string"
  | .invalidDigit => "invalid digit found in string"
  | .tooLarge => "number too large to fit in target type"

/-- The value of an ASCII digit. -/
def digitValue (c : Char) : Option Nat :=
  if c.isDigit then some (c.toNat - '0'.toNat) else none

/-- Appends the digits of the text to the value read so far. -/
def readDigits (limit : Nat) : Nat → List Char → Except DecimalFault Nat
  | value, [] => .ok value
  | value, c :: rest =>
    match digitValue c with
    | none => .error .invalidDigit
    | some digit =>
      if value * 10 + digit ≤ limit then readDigits limit (value * 10 + digit) rest
      else .error .tooLarge

/-- The number that the text writes, if it is at most `limit`. -/
def readDecimal (limit : Nat) : List Char → Except DecimalFault Nat
  | [] => .error .empty
  | ['+'] => .error .invalidDigit
  | '+' :: digits => readDigits limit 0 digits
  | digits => readDigits limit 0 digits

/-- The decimal digits of a number, without leading zeros. -/
def decimal (n : Nat) : List Char := Nat.toDigits 10 n

end Nomenclator.Text
