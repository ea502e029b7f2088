import Nomenclator.Json
import Nomenclator.Naming.Error

/-!
# Namespaces — the naming schemes of a document

A document declares its namespaces once, in order; a namespace is then known by its
position. `Direction` is an ordered pair of labels: names are read in the first and
written in the second.
-/

namespace Nomenclator

/-- From which naming scheme to which. -/
structure Direction where
  source : String
  dest : String
  deriving DecidableEq, Repr

/-- The direction as `source -> dest`. -/
def Direction.text (d : Direction) : String := d.source ++ " -> " ++ d.dest

/-- Does the direction lead back to where it starts? -/
def Direction.isIdentity (d : Direction) : Bool := d.source == d.dest

/-- The way back. -/
def Direction.reversed (d : Direction) : Direction := { source := d.dest, dest := d.source }

/-- The direction as a JSON object. -/
def Direction.json (d : Direction) : String :=
  "\x7b\"from\":" ++ Json.quote d.source ++ ",\"to\":" ++ Json.quote d.dest ++ "\x7d"

namespace Naming

/-- The labels that a document declares, in column order. -/
structure Namespaces where
  labels : List String
  deriving DecidableEq, Repr

namespace Namespaces

/-- The first label, from the left, that is empty or repeats an earlier one. -/
def firstFault : (earlier : List String) → List String → Option Fault
  | _, [] => none
  | earlier, label :: later =>
    if label = "" then some .emptyNamespace
    else if label ∈ earlier then some (.repeatedNamespace label)
    else firstFault (earlier ++ [label]) later

/-- Declares the labels of a header: at least one, none empty, none twice. Faults belong to
    the first line. -/
def declare (labels : List String) : Except Error Namespaces :=
  if labels.isEmpty then .error (.parse 1 .noNamespaces)
  else match firstFault [] labels with
    | some fault => .error (.parse 1 fault)
    | none => .ok ⟨labels⟩

/-- The number of declared namespaces. -/
def size (ns : Namespaces) : Nat := ns.labels.length

/-- Is the label declared? -/
def contains (ns : Namespaces) (label : String) : Bool := ns.labels.contains label

/-- The position of a label. -/
def resolve (ns : Namespaces) (label : String) : Except Error Nat :=
  match ns.labels.idxOf? label with
  | some index => .ok index
  | none => .error (.unknownNamespace label ns.labels)

/-- The label at a position. -/
def label (ns : Namespaces) (index : Nat) : String := ns.labels.getD index ""

end Namespaces

end Naming

end Nomenclator
