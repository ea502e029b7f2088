import Nomenclator.Naming.Document
import Nomenclator.Naming.Escape
import Nomenclator.Text.Blank

/-!
# Nested documents

Rows are nested by leading tabs. Below the header stand properties at depth one, up to
the first row of another depth; of these only `escaped-names` matters. A `c` row at depth
zero starts a class, an `f` or `m` row at depth one adds a member to the class above it.
Comments of a class (`c` at depth one) are skipped, and so are rows below a member:
parameters, variables and comments (`p`, `v`, `c` at depth two) and their comments (`c` at
depth three). Blank lines are no rows; every other row is at fault.
-/

namespace Nomenclator.Naming.Nested

/-- What the reader knows after the lines read so far. Classes are kept last first. -/
structure State where
  escaped : Bool := false
  inProperties : Bool := true
  inMember : Bool := false
  classes : List ClassRow := []
  deriving DecidableEq, Repr

/-- The text that a cell stands for. -/
def State.cellText (s : State) (cell : String) : String :=
  if s.escaped then String.ofList (Escape.decode cell.toList) else cell

/-- The indentation of a line: the number of tabs it starts with. -/
def depth (line : List Char) : Nat := (line.takeWhile (· == '\t')).length

/-- The cells of a line after its indentation. -/
def rowCells (line : List Char) : List String := Text.cells (line.drop (depth line))

/-- Is the line a row at all? -/
def isRow (line : List Char) : Bool := !(Text.trim line).isEmpty

/-- Starts a class. -/
def State.addClass (s : State) (count line : Nat) (cells : List String) : Except Error State :=
  (readNames count line cells).map fun names =>
    { s with
      inMember := false
      classes := { line, names := names.map s.cellText } :: s.classes }

/-- Adds a member to the last class. `cells` are those after the row's first. -/
def State.addMember (s : State) (count line : Nat) (kind : MemberKind) (cells : List String) :
    Except Error State :=
  match s.classes with
  | [] => .error (.parse line .memberOutsideClass)
  | c :: earlier =>
    match cells with
    | descriptor :: names =>
      if names.length ≠ count then
        .error (.parse line (.nestedMemberColumns (cells.length + 1) (2 + count)))
      else if descriptor = "" then .error (.parse line .emptyDescriptor)
      else (readNames count line names).map fun names =>
        { s with
          inMember := true
          classes := c.addMember kind
            { line, descriptor := s.cellText descriptor, names := names.map s.cellText }
              :: earlier }
    | [] => .error (.parse line (.nestedMemberColumns 1 (2 + count)))

/-- Reads a row of the body. -/
def State.readRow (s : State) (count line depth : Nat) (cells : List String) :
    Except Error State :=
  let word := cells.headD ""
  let rest := cells.drop 1
  match depth, word with
  | 0, "c" => s.addClass count line rest
  | 1, "f" => s.addMember count line .field rest
  | 1, "m" => s.addMember count line .method rest
  | 1, "c" => .ok s
  | 2, "p" | 2, "v" | 2, "c" | 3, "c" =>
    if s.inMember then .ok s else .error (.parse line (.unexpectedRow word depth))
  | _, _ => .error (.parse line (.unexpectedRow word depth))

/-- Reads one line, for a document with `count` namespaces. -/
def State.readLine (count : Nat) (s : State) (entry : Nat × List Char) : Except Error State :=
  let (line, text) := entry
  if !isRow text then .ok s
  else
    let depth := depth text
    let cells := rowCells text
    if s.inProperties && depth == 1 then
      .ok { s with escaped := s.escaped || cells.headD "" == "escaped-names" }
    else { s with inProperties := false }.readRow count line depth cells

/-- Reads a nested document: its header, then its lines. -/
def read (header : List Char) (body : List (Nat × List Char)) : Except Error Document := do
  let cells := Text.cells header
  if cells.length < 4 then throw (.parse 1 .noNamespaceColumns)
  let namespaces ← Namespaces.declare (cells.drop 3)
  let final ← body.foldlM (State.readLine namespaces.size) {}
  return { format := .tinyV2, namespaces, classes := final.classes.reverse }

end Nomenclator.Naming.Nested
