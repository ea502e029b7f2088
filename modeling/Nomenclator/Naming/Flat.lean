import Nomenclator.Naming.Document

/-!
# Flat documents

Every row stands for itself: a `CLASS` row has one name per namespace, a `FIELD` or
`METHOD` row names its owner (in the first namespace), its descriptor and one name per
namespace. Empty lines and lines that start with `#` are no rows. A member row may stand
before the row of its class, so members are given to their classes after all rows are
read: each to the first class row with the owner's name.
-/

namespace Nomenclator.Naming.Flat

/-- What a line of the body says. -/
inductive Row where
  | ofClass (row : ClassRow)
  | ofMember (kind : MemberKind) (owner : String) (row : MemberRow)
  deriving DecidableEq, Repr

/-- Is the line a row at all? -/
def isRow (line : List Char) : Bool := !line.isEmpty && line.head? != some '#'

/-- Reads a member row; `word` is its first cell. -/
def readMember (count line : Nat) (kind : MemberKind) (word : String) (cells : List String) :
    Except Error Row :=
  match cells with
  | owner :: descriptor :: names =>
    if names.length ≠ count then
      .error (.parse line (.flatMemberColumns word (cells.length + 1) (3 + count)))
    else if owner = "" then .error (.parse line .emptyOwner)
    else if descriptor = "" then .error (.parse line .emptyDescriptor)
    else (readNames count line names).map fun names =>
      .ofMember kind owner { line, descriptor, names }
  | _ => .error (.parse line (.flatMemberColumns word (cells.length + 1) (3 + count)))

/-- Reads one row, for a document with `count` namespaces. -/
def readRow (count line : Nat) (text : List Char) : Except Error Row :=
  match Text.cells text with
  | "CLASS" :: names => (readNames count line names).map fun names => .ofClass { line, names }
  | "FIELD" :: cells => readMember count line .field "FIELD" cells
  | "METHOD" :: cells => readMember count line .method "METHOD" cells
  | word :: _ => .error (.parse line (.unknownRow word))
  | [] => .error (.parse line (.unknownRow ""))

/-- Reads all rows among the numbered lines; the first fault wins. -/
def readRows (count : Nat) : List (Nat × List Char) → Except Error (List Row)
  | [] => .ok []
  | (line, text) :: later =>
    if isRow text then do
      let row ← readRow count line text
      let rows ← readRows count later
      return row :: rows
    else readRows count later

/-- The class rows, in order. -/
def classRows (rows : List Row) : List ClassRow :=
  rows.filterMap fun
    | .ofClass row => some row
    | .ofMember .. => none

/-- The member rows with their owners, in order. -/
def memberRows (rows : List Row) : List (MemberKind × String × MemberRow) :=
  rows.filterMap fun
    | .ofClass _ => none
    | .ofMember kind owner row => some (kind, owner, row)

/-- Gives a member to the first class with the owner's name. -/
def giveTo (owner : String) (kind : MemberKind) (m : MemberRow) :
    List ClassRow → Option (List ClassRow)
  | [] => none
  | c :: later =>
    if c.firstName = owner then some (c.addMember kind m :: later)
    else (giveTo owner kind m later).map (c :: ·)

/-- Gives every member to its class, in row order. -/
def giveAll (classes : List ClassRow) :
    List (MemberKind × String × MemberRow) → Except Error (List ClassRow)
  | [] => .ok classes
  | (kind, owner, m) :: later =>
    match giveTo owner kind m classes with
    | some classes => giveAll classes later
    | none => .error (.parse m.line (.unknownOwner owner))

/-- Reads a flat document: its header, then its rows. -/
def read (header : List Char) (body : List (Nat × List Char)) : Except Error Document := do
  let namespaces ← Namespaces.declare ((Text.cells header).drop 1)
  let rows ← readRows namespaces.size body
  let classes ← giveAll (classRows rows) (memberRows rows)
  return { format := .tinyV1, namespaces, classes }

end Nomenclator.Naming.Flat
