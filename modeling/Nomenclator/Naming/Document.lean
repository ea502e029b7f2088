import Nomenclator.Naming.Namespaces
import Nomenclator.Text.Lines

/-!
# Naming documents as rows

What a reader takes from a document before anything is derived from it: the declared
namespaces and, in document order, the class rows with their member rows. A row keeps the
number of its line, because later checks report it. Member descriptors are written in the
first namespace only.
-/

namespace Nomenclator.Naming

/-- The two layouts of a document: flat rows that name their owner, and rows nested by
    indentation. -/
inductive Format where
  | tinyV1
  | tinyV2
  deriving DecidableEq, Repr

/-- The name of the format. -/
def Format.name : Format → String
  | .tinyV1 => "TinyV1"
  | .tinyV2 => "TinyV2"

/-- A field or method as declared. -/
structure MemberRow where
  line : Nat
  descriptor : String
  names : List String
  deriving DecidableEq, Repr

/-- The name in the first namespace. -/
def MemberRow.firstName (m : MemberRow) : String := m.names.headD ""

/-- A class as declared, with the members that belong to its row. -/
structure ClassRow where
  line : Nat
  names : List String
  fields : List MemberRow := []
  methods : List MemberRow := []
  deriving DecidableEq, Repr

/-- The name in the first namespace. -/
def ClassRow.firstName (c : ClassRow) : String := c.names.headD ""

/-- The class with one more member, after those it has. -/
def ClassRow.addMember (c : ClassRow) (kind : MemberKind) (m : MemberRow) : ClassRow :=
  match kind with
  | .field => { c with fields := c.fields ++ [m] }
  | .method => { c with methods := c.methods ++ [m] }

/-- A document as declared. -/
structure Document where
  format : Format
  namespaces : Namespaces
  classes : List ClassRow
  deriving DecidableEq, Repr

/-- Decides the format by the first line. -/
def Format.detect (lines : List (Nat × List Char)) : Except Error Format :=
  match lines with
  | [] => .error (.parse 1 .emptyDocument)
  | (_, header) :: _ =>
    match Text.cells header with
    | "v1" :: _ => .ok .tinyV1
    | "tiny" :: "2" :: _ :: _ => .ok .tinyV2
    | "tiny" :: _ => .error (.parse 1 .unsupportedVersion)
    | _ => .error (.parse 1 .missingHeader)

/-- The one-based position of the first empty name. -/
def firstMissing : (column : Nat) → List String → Option Nat
  | _, [] => none
  | column, name :: later => if name = "" then some column else firstMissing (column + 1) later

/-- Reads one name per namespace; a row of another length, or with an empty cell, is at
    fault. -/
def readNames (count line : Nat) (cells : List String) : Except Error (List String) :=
  if cells.length ≠ count then .error (.parse line (.nameCount cells.length count))
  else match firstMissing 1 cells with
    | some column => .error (.parse line (.missingName column))
    | none => .ok cells

end Nomenclator.Naming
