import Nomenclator.Json

/-!
# Configuration documents — dates and times

A moment is a date, a time of day, or both; a date with a time may carry the distance of a
time zone from universal time. Every moment has one canonical text: the parts in full
width, `T` between date and time, the fraction of a second without zeros at its end, and
`Z` or the signed distance last. Reading accepts more: a blank or a small `t` between date
and time, a small `z`, and fractions of any length, of which nine digits count.
-/

namespace Nomenclator.Toml

-- ── Digits ───────────────────────────────────────────────────────────────────

/-- The value of digits in a base. -/
def valueIn (base : Nat) (digits : List Char) : Nat :=
  digits.foldl (fun value c => value * base + (Json.hexValue c).getD 0) 0

/-- Digits of a base up to sixteen. -/
def isDigitIn (base : Nat) (c : Char) : Bool :=
  match Json.hexValue c with
  | some value => value < base
  | none => false

/-- The value of a run of decimal digits of the given length. -/
def fixedDigits (count : Nat) (text : List Char) : Option Nat :=
  if text.length = count ∧ text.all (isDigitIn 10) then some (valueIn 10 text) else none

/-- The decimal digits of a number, with zeros in front up to a width. -/
def padded (width value : Nat) : List Char :=
  let digits := Nat.toDigits 10 value
  List.replicate (width - digits.length) '0' ++ digits

-- ── Parts ────────────────────────────────────────────────────────────────────

/-- A day of the calendar. -/
structure Date where
  year : Nat
  month : Nat
  day : Nat
  deriving DecidableEq, Repr

/-- A time of day, to the billionth of a second. -/
structure Time where
  hour : Nat
  minute : Nat
  second : Nat
  nanosecond : Nat
  deriving DecidableEq, Repr

/-- The distance of a time zone from universal time, in minutes; `utc` is written without. -/
inductive Zone where
  | utc
  | ahead (minutes : Int)
  deriving DecidableEq, Repr

/-- A date, a time, or both. -/
inductive Moment where
  | date (d : Date)
  | time (t : Time)
  | both (d : Date) (t : Time) (zone : Option Zone)
  deriving DecidableEq, Repr

/-- The number of days of a month. -/
def daysIn (year month : Nat) : Nat :=
  if month = 2 then
    if (year % 4 = 0 ∧ year % 100 ≠ 0) ∨ year % 400 = 0 then 29 else 28
  else if month = 4 ∨ month = 6 ∨ month = 9 ∨ month = 11 then 30
  else 31

/-- Reads a date, `YYYY-MM-DD`, that the calendar has. -/
def date? (text : List Char) : Option Date := do
  let year ← fixedDigits 4 (text.take 4)
  let month ← fixedDigits 2 ((text.drop 5).take 2)
  let day ← fixedDigits 2 (text.drop 8)
  if text[4]? = some '-' ∧ text[7]? = some '-' ∧ 1 ≤ month ∧ month ≤ 12 ∧ 1 ≤ day
      ∧ day ≤ daysIn year month then
    some { year, month, day }
  else none

/-- The billionths of a second that a fraction stands for: digits beyond the ninth are cut
    off. -/
def nanoseconds (digits : List Char) : Nat :=
  valueIn 10 ((digits ++ List.replicate 9 '0').take 9)

/-- Reads the fraction of a second, from its point on. -/
def fraction? : List Char → Option Nat
  | [] => some 0
  | '.' :: digits =>
    if !digits.isEmpty && digits.all (isDigitIn 10) then some (nanoseconds digits) else none
  | _ => none

/-- Reads a time of day, `HH:MM:SS` with an optional fraction. The last second of a day may be
    a leap second. -/
def time? (text : List Char) : Option Time := do
  let hour ← fixedDigits 2 (text.take 2)
  let minute ← fixedDigits 2 ((text.drop 3).take 2)
  let second ← fixedDigits 2 ((text.drop 6).take 2)
  let nanosecond ← fraction? (text.drop 8)
  if text[2]? = some ':' ∧ text[5]? = some ':' ∧ hour ≤ 23 ∧ minute ≤ 59 ∧ second ≤ 60 then
    some { hour, minute, second, nanosecond }
  else none

/-- Reads the distance of a time zone: `Z`, or a sign and `HH:MM`. -/
def zone? (text : List Char) : Option Zone :=
  let distance (rest : List Char) : Option Int := do
    let hour ← fixedDigits 2 (rest.take 2)
    let minute ← fixedDigits 2 (rest.drop 3)
    if rest[2]? = some ':' ∧ hour ≤ 23 ∧ minute ≤ 59 then some (hour * 60 + minute : Nat) else none
  match text with
  | ['Z'] | ['z'] => some .utc
  | '+' :: rest => (distance rest).map .ahead
  | '-' :: rest => (distance rest).map fun minutes => .ahead (-minutes)
  | _ => none

/-- Does the character stand between a date and a time? -/
def separatesTime (c : Char) : Bool := c == 'T' || c == 't' || c == ' '

/-- Reads a date and a time with an optional time zone. -/
def dateAndTime? (text : List Char) : Option Moment := do
  let date ← date? (text.take 10)
  match text.drop 10 with
  | separator :: clock =>
    let time := clock.takeWhile fun c => c != 'Z' && c != 'z' && c != '+' && c != '-'
    let zone ← match clock.drop time.length with
      | [] => some none
      | zone => (zone? zone).map some
    if separatesTime separator then return .both date (← time? time) zone else none
  | [] => none

/-- Reads a moment. -/
def moment? (text : List Char) : Option Moment :=
  (date? text).map .date <|> (time? text).map .time <|> dateAndTime? text

-- ── The canonical text ───────────────────────────────────────────────────────

/-- The canonical text of a date. -/
def Date.text (d : Date) : List Char :=
  padded 4 d.year ++ '-' :: padded 2 d.month ++ '-' :: padded 2 d.day

/-- The canonical text of a time: no fraction if it is zero. -/
def Time.text (t : Time) : List Char :=
  let fraction := (padded 9 t.nanosecond).reverse.dropWhile (· == '0') |>.reverse
  padded 2 t.hour ++ ':' :: padded 2 t.minute ++ ':' :: padded 2 t.second
    ++ if fraction.isEmpty then [] else '.' :: fraction

/-- The canonical text of a time zone; a distance of zero has a plus. -/
def Zone.text : Zone → List Char
  | .utc => ['Z']
  | .ahead minutes =>
    let distance := minutes.natAbs
    (if minutes < 0 then '-' else '+') :: padded 2 (distance / 60)
      ++ ':' :: padded 2 (distance % 60)

/-- The canonical text of a moment. -/
def Moment.text : Moment → String
  | .date d => String.ofList d.text
  | .time t => String.ofList t.text
  | .both d t zone => String.ofList (d.text ++ 'T' :: t.text ++ (zone.map Zone.text).getD [])

end Nomenclator.Toml
