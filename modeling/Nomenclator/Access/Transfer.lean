import Nomenclator.Access.Overrides
import Nomenclator.Naming.Catalog

/-!
# Overrides in another namespace

A class goes to its name in the target namespace. A member that the catalog declares goes
to its own identity there; any other member keeps its name, while its owner and the
classes in its descriptor are transferred. Symbols that meet in the target namespace merge
by the rule of `Overrides.add`.
-/

namespace Nomenclator.Access

/-- Identities of the target namespace by identities of the source namespace. -/
structure Transfer where
  direction : Direction
  classes : SortedMap String String
  fields : SortedMap MemberRef MemberRef
  methods : SortedMap MemberRef MemberRef
  deriving DecidableEq

namespace Transfer

/-- The declared members of one kind. -/
def members (t : Transfer) : MemberKind → SortedMap MemberRef MemberRef
  | .field => t.fields
  | .method => t.methods

/-- The identity of a member of a class, in the namespace at a position. -/
def memberRef (c : Naming.ClassEntry) (m : Naming.Member) (ns : Nat) : MemberRef :=
  { owner := c.name ns, name := m.name ns, descriptor := m.descriptor ns }

/-- The identities of all members of one kind in two namespaces; of several with one identity
    the last counts. -/
def memberTable (classes : List Naming.ClassEntry) (kind : MemberKind) (source dest : Nat) :
    SortedMap MemberRef MemberRef :=
  .ofList (classes.flatMap fun c =>
    (c.members kind).map fun m => (memberRef c m source, memberRef c m dest))

/-- What a catalog says about two of its namespaces. -/
def ofCatalog (catalog : Naming.Catalog) (direction : Direction) : Except Error Transfer := do
  let source ← (catalog.resolve direction.source).mapError .naming
  let dest ← (catalog.resolve direction.dest).mapError .naming
  return {
    direction
    classes := catalog.classNames source dest
    fields := memberTable catalog.classes .field source dest
    methods := memberTable catalog.classes .method source dest }

/-- The class in the target namespace. -/
def className (t : Transfer) (name : String) : Except Error String :=
  match t.classes.get? name with
  | some target => .ok target
  | none => .error (.unresolved name t.direction.source t.direction.dest)

/-- The member in the target namespace. -/
def member (t : Transfer) (kind : MemberKind) (m : MemberRef) : Except Error MemberRef :=
  match (t.members kind).get? m with
  | some target => .ok target
  | none => do
    let owner ← t.className m.owner
    let descriptor ← (Naming.renameDescriptor t.classes m.descriptor).mapError .naming
    return { owner, name := m.name, descriptor }

/-- The subject in the target namespace. -/
def subject (t : Transfer) : Subject → Except Error Subject
  | .ofClass name => (t.className name).map .ofClass
  | .ofMember kind m => (t.member kind m).map (.ofMember kind)

/-- Transfers entries in order and adds each at once. -/
def addAll (t : Transfer) (o : Overrides) :
    List (Subject × Visibility) → Except Error Overrides
  | [] => .ok o
  | (subject, visibility) :: later => do
    let target ← t.subject subject
    let o ← o.add target visibility
    t.addAll o later

/-- The overrides in the target namespace. -/
def apply (t : Transfer) (o : Overrides) : Except Error Overrides :=
  if o.label ≠ t.direction.source then
    .error (.namespaceMismatch t.direction.source o.label)
  else t.addAll { label := t.direction.dest } o.entries

/-- What a transfer reports about its result. -/
def appliedRecord (t : Transfer) (result : Overrides) : LogRecord :=
  let count := result.size
  let direction := t.direction.text
  { level := .debug, message := s!"Remapped {count} access entries {direction}" }

end Transfer

/-- Overrides with the log of how they came about. -/
structure Transferred where
  overrides : Overrides
  log : Log
  deriving DecidableEq

/-- Transfers overrides in a direction, from whose source they have to come. -/
def transferAlong (catalog : Naming.Catalog) (direction : Direction) (o : Overrides) :
    Except Error Transferred := do
  let t ← Transfer.ofCatalog catalog direction
  let overrides ← t.apply o
  return { overrides, log := [t.appliedRecord overrides] }

/-- The record that a transfer starts. -/
def transferRecord (direction : Direction) : LogRecord :=
  { level := .info, message := ":remapping access specification " ++ direction.text }

/-- Transfers overrides into a namespace; those that are in it already stay as they are. -/
def transfer (catalog : Naming.Catalog) (dest : String) (o : Overrides) :
    Except Error Transferred :=
  if o.label = dest then .ok { overrides := o, log := [] }
  else
    let direction : Direction := { source := o.label, dest }
    (transferAlong catalog direction o).map fun t =>
      { t with log := transferRecord direction :: t.log }

end Nomenclator.Access
