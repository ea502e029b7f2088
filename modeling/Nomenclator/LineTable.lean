import Nomenclator.SortedMap
import Nomenclator.Text.Decimal
import Nomenclator.Text.Lines

/-!
# Line tables — where the lines of a class went

For every class a map from lines of the compiled class to lines of its decompiled text.
A decompiler reports two maps from instructions, one to each side; `LineReport.compose`
joins them, and of several instructions on one line the one with the highest index counts.

A table is written as one block per class, in the order of the names: a header with the
name and the greatest line on each side, one indented row per line, and an empty line.
Reading checks the form of a header but takes nothing from its numbers.
-/

namespace Nomenclator

/-- The lines of one class. -/
abbrev LineRows := SortedMap UInt32 UInt32

/-- What a decompiler reports about a class: the line of every instruction on both sides. -/
structure LineReport where
  compiled : LineRows
  written : LineRows
  deriving DecidableEq

/-- Lines of the compiled class to lines of the written text. -/
def LineReport.compose (report : LineReport) : LineRows :=
  .ofList (report.written.toList.filterMap fun (instruction, dest) =>
    (report.compiled.get? instruction).map fun source => (source, dest))

/-- The lines of all classes. -/
structure LineTable where
  classes : SortedMap String LineRows := .empty
  deriving DecidableEq

namespace LineTable

/-- What is wrong with a line of a written table. -/
inductive Fault where
  | rowOutsideClass
  | badHeader
  | missingColumn
  | badNumber (text : String) (fault : Text.DecimalFault)
  deriving DecidableEq, Repr

/-- The fault in words. -/
def Fault.message : Fault → String
  | .rowOutsideClass => "line row outside a class"
  | .badHeader => "expected `<class>\\t<max>\\t<max>`"
  | .missingColumn => "expected two columns"
  | .badNumber text fault =>
    let cause := fault.message
    s!"bad line number `{text}`: {cause}"

/-- Why a table cannot be read. -/
structure Error where
  line : Nat
  fault : Fault
  deriving DecidableEq, Repr

/-- The error in words. -/
def Error.message (e : Error) : String :=
  let line := e.line
  let text := e.fault.message
  s!"Line map parse error at line {line}: {text}"

/-- The rows of a class, none if it has no entry. -/
def rowsOf (table : LineTable) (name : String) : LineRows :=
  (table.classes.get? name).getD .empty

/-- Adds rows to a class; a line that is there already gets its new value. -/
def insert (table : LineTable) (name : String) (rows : LineRows) : LineTable :=
  { classes := table.classes.insert name ((table.rowsOf name).insertAll rows.toList) }

/-- The written line for a line of a class: that of the nearest line at or before it. -/
def lookup (table : LineTable) (name : String) (line : UInt32) : Option UInt32 :=
  (table.classes.get? name).bind fun rows => (rows.floor? line).map Prod.snd

-- ── Writing ──────────────────────────────────────────────────────────────────

/-- The greatest of some numbers, zero if there are none. -/
def greatest (lines : List UInt32) : Nat := lines.foldl (fun most line => max most line.toNat) 0

/-- Two numbers in two columns. -/
def renderPair (source dest : Nat) : List Char :=
  Text.decimal source ++ '\t' :: Text.decimal dest

/-- One row of a block. -/
def renderRow (row : UInt32 × UInt32) : List Char :=
  '\t' :: renderPair row.1.toNat row.2.toNat ++ ['\n']

/-- The block of one class. -/
def renderClass (name : String) (rows : LineRows) : List Char :=
  name.toList ++ '\t' :: renderPair (greatest rows.keys) (greatest rows.values) ++ ['\n']
    ++ rows.toList.flatMap renderRow ++ ['\n']

/-- The table as text. -/
def render (table : LineTable) : String :=
  String.ofList (table.classes.toList.flatMap fun (name, rows) => renderClass name rows)

-- ── Reading ──────────────────────────────────────────────────────────────────

/-- Reads a line number. -/
def readNumber (line : Nat) (text : List Char) : Except Error UInt32 :=
  match Text.readDecimal (UInt32.size - 1) text with
  | .ok n => .ok (UInt32.ofNat n)
  | .error fault => .error ⟨line, .badNumber (String.ofList text) fault⟩

/-- Reads two numbers in two columns. -/
def readPair (line : Nat) (text : List Char) : Except Error (UInt32 × UInt32) :=
  match Text.splitOnce '\t' text with
  | none => .error ⟨line, .missingColumn⟩
  | some (first, second) => do
    let source ← readNumber line first
    let dest ← readNumber line second
    return (source, dest)

/-- The table read so far, and the class to which rows belong. -/
structure Reading where
  table : LineTable := {}
  current : Option String := none
  deriving DecidableEq

/-- Reads the header of a block: a name and two numbers. -/
def readHeader (line : Nat) (text : List Char) : Except Error String :=
  match Text.pieces '\t' text with
  | [name, first, second] =>
    if name.isEmpty then .error ⟨line, .badHeader⟩
    else (readPair line (first ++ '\t' :: second)).map fun _ => String.ofList name
  | _ => .error ⟨line, .badHeader⟩

/-- Reads one line. -/
def readLine (r : Reading) (entry : Nat × List Char) : Except Error Reading :=
  let (line, text) := entry
  match text with
  | [] => .ok { r with current := none }
  | '\t' :: row =>
    match r.current with
    | none => .error ⟨line, .rowOutsideClass⟩
    | some name =>
      (readPair line row).map fun (source, dest) =>
        { r with table := r.table.insert name (.ofList [(source, dest)]) }
  | text =>
    (readHeader line text).map fun name =>
      { table := r.table.insert name .empty, current := some name }

/-- Reads a written table. -/
def parse (text : String) : Except Error LineTable :=
  ((Text.numberedLines text.toList).foldlM readLine {}).map Reading.table

end LineTable

end Nomenclator
