import Nomenclator.Naming.Catalog

/-!
# Rename tables — what a renaming tool is given

For every class of the source namespace its name in the target namespace, and for every
member, identified by name and descriptor in the source namespace, its target name. All
maps are sorted by their keys. Where one identity is entered twice, the last entry counts.
-/

namespace Nomenclator.Naming

/-- The renaming of one class and its members. -/
structure ClassRename where
  target : String
  fields : SortedMap MemberKey String := .empty
  methods : SortedMap MemberKey String := .empty
  deriving DecidableEq

/-- The members of one kind. -/
def ClassRename.members (c : ClassRename) : MemberKind → SortedMap MemberKey String
  | .field => c.fields
  | .method => c.methods

/-- The class with one member renamed. -/
def ClassRename.insert (c : ClassRename) (kind : MemberKind) (key : MemberKey) (target : String) :
    ClassRename :=
  match kind with
  | .field => { c with fields := c.fields.insert key target }
  | .method => { c with methods := c.methods.insert key target }

/-- The renaming of all classes in one direction. -/
structure RenameTable where
  direction : Direction
  classes : SortedMap String ClassRename := .empty
  deriving DecidableEq

namespace RenameTable

/-- Sets the target name of a class; members already entered for it stay. -/
def setClass (table : RenameTable) (name target : String) : RenameTable :=
  let entry :=
    match table.classes.get? name with
    | some known => { known with target }
    | none => { target }
  { table with classes := table.classes.insert name entry }

/-- Sets the target name of a member. A class that is not entered yet keeps its name. -/
def setMember (table : RenameTable) (kind : MemberKind) (owner : String) (key : MemberKey)
    (target : String) : RenameTable :=
  let known := (table.classes.get? owner).getD { target := owner }
  { table with classes := table.classes.insert owner (known.insert kind key target) }

/-- The target name of a class. -/
def className? (table : RenameTable) (name : String) : Option String :=
  (table.classes.get? name).map ClassRename.target

/-- The target name of a member. -/
def memberName? (table : RenameTable) (kind : MemberKind) (owner : String) (key : MemberKey) :
    Option String :=
  (table.classes.get? owner).bind fun c => (c.members kind).get? key

/-- The number of classes and members that the table renames. -/
def entryCount (table : RenameTable) : Nat :=
  table.classes.values.foldl (fun count c => count + 1 + c.fields.size + c.methods.size) 0

/-- Enters the members of a kind as they are named in two namespaces. -/
def addMembers (source dest : Nat) (owner : String) (kind : MemberKind) (table : RenameTable)
    (members : List Member) : RenameTable :=
  members.foldl (fun table m => table.setMember kind owner (m.key source) (m.name dest)) table

/-- Enters a class with its members. -/
def addClass (source dest : Nat) (table : RenameTable) (c : ClassEntry) : RenameTable :=
  let owner := c.name source
  let named := table.setClass owner (c.name dest)
  let withFields := named.addMembers source dest owner .field c.fields
  withFields.addMembers source dest owner .method c.methods

/-- What a catalog says about two of its namespaces. -/
def ofCatalog (catalog : Catalog) (direction : Direction) : Except Error RenameTable := do
  let source ← catalog.resolve direction.source
  let dest ← catalog.resolve direction.dest
  return catalog.classes.foldl (addClass source dest) { direction }

/-- What reading a table off a catalog reports. -/
def resolvedRecord (table : RenameTable) : LogRecord :=
  let direction := table.direction.text
  let count := table.entryCount
  { level := .debug, message := s!"Resolved {direction} mapping set with {count} entries" }

end RenameTable

end Nomenclator.Naming
