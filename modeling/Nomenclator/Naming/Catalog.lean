import Nomenclator.Digest
import Nomenclator.Log
import Nomenclator.Naming.Flat
import Nomenclator.Naming.Nested
import Nomenclator.SortedMap

/-!
# Catalogs — loaded naming documents

A catalog knows every class and member under one name per namespace. Loading reads the
rows, joins repeated declarations of one symbol (which must agree in every namespace), and
writes the descriptor of every member in each namespace by renaming the classes that it
mentions. The first fault wins, in the order: reading, repeated classes, repeated members,
descriptors.
-/

namespace Nomenclator.Naming

/-- A field or method: one name and one descriptor per namespace. -/
structure Member where
  names : List String
  descriptors : List String
  deriving DecidableEq, Repr

/-- The name in the namespace at a position. -/
def Member.name (m : Member) (ns : Nat) : String := m.names.getD ns ""

/-- The descriptor in the namespace at a position. -/
def Member.descriptor (m : Member) (ns : Nat) : String := m.descriptors.getD ns ""

/-- The identity of the member inside its class, in the namespace at a position. -/
def Member.key (m : Member) (ns : Nat) : MemberKey := { name := m.name ns, descriptor := m.descriptor ns }

/-- A class: one name per namespace, and its members. -/
structure ClassEntry where
  names : List String
  fields : List Member
  methods : List Member
  deriving DecidableEq, Repr

/-- The name in the namespace at a position. -/
def ClassEntry.name (c : ClassEntry) (ns : Nat) : String := c.names.getD ns ""

/-- The members of one kind. -/
def ClassEntry.members (c : ClassEntry) : MemberKind → List Member
  | .field => c.fields
  | .method => c.methods

/-- A loaded naming document; classes and members are in document order. -/
structure Catalog where
  format : Format
  namespaces : Namespaces
  classes : List ClassEntry
  fingerprint : String
  deriving DecidableEq, Repr

-- ── Repeated declarations ────────────────────────────────────────────────────

/-- The first namespace in which two declarations of one symbol differ, with the two names. -/
def firstDifference : (labels earlier later : List String) → Option (String × String × String)
  | label :: labels, a :: earlier, b :: later =>
    if a = b then firstDifference labels earlier later else some (label, a, b)
  | _, _, _ => none

/-- Accepts a repeated declaration that agrees with the earlier one. The fault belongs to the
    line of the later one. -/
def checkSame (ns : Namespaces) (kind : SymbolKind) (line : Nat) (earlier later : List String) :
    Except Error Unit :=
  match firstDifference ns.labels earlier later with
  | none => .ok ()
  | some (label, a, b) => .error (.parse line (.conflict kind (earlier.headD "") label a b))

/-- Adds a class row to those before it: to the end, or to the row with the same first name. -/
def mergeClass (ns : Namespaces) (incoming : ClassRow) :
    List ClassRow → Except Error (List ClassRow)
  | [] => .ok [incoming]
  | c :: later =>
    if c.firstName = incoming.firstName then
      (checkSame ns .ofClass incoming.line c.names incoming.names).map fun _ =>
        { c with
          fields := c.fields ++ incoming.fields
          methods := c.methods ++ incoming.methods } :: later
    else (mergeClass ns incoming later).map (c :: ·)

/-- Adds a member row to those before it, unless one of them has the same first name and
    descriptor. -/
def mergeMember (ns : Namespaces) (kind : MemberKind) (incoming : MemberRow) :
    List MemberRow → Except Error (List MemberRow)
  | [] => .ok [incoming]
  | m :: later =>
    if m.firstName = incoming.firstName ∧ m.descriptor = incoming.descriptor then
      (checkSame ns (.ofMember kind) incoming.line m.names incoming.names).map fun _ => m :: later
    else (mergeMember ns kind incoming later).map (m :: ·)

/-- One row per class. -/
def mergeClasses (ns : Namespaces) (rows : List ClassRow) : Except Error (List ClassRow) :=
  rows.foldlM (fun merged row => mergeClass ns row merged) []

/-- One row per member of a kind. -/
def mergeMembers (ns : Namespaces) (kind : MemberKind) (rows : List MemberRow) :
    Except Error (List MemberRow) :=
  rows.foldlM (fun merged row => mergeMember ns kind row merged) []

/-- A class row with one row per member. -/
def mergeWithin (ns : Namespaces) (c : ClassRow) : Except Error ClassRow := do
  let fields ← mergeMembers ns .field c.fields
  let methods ← mergeMembers ns .method c.methods
  return { c with fields, methods }

/-- One row per class and member. -/
def mergeRows (ns : Namespaces) (rows : List ClassRow) : Except Error (List ClassRow) := do
  let classes ← mergeClasses ns rows
  classes.mapM (mergeWithin ns)

-- ── Descriptors in every namespace ───────────────────────────────────────────

/-- The names of the classes in the namespace at a position, by their first names. -/
def nameTable (classes : List ClassRow) (ns : Nat) : SortedMap String String :=
  .ofList (classes.map fun c => (c.firstName, c.names.getD ns ""))

/-- A descriptor with its class names replaced through a table. -/
def renameDescriptor (table : SortedMap String String) (descriptor : String) :
    Except Error String :=
  (Descriptor.renameClasses table.get? descriptor).mapError (.invalidDescriptor descriptor)

/-- The member with its descriptor written in every namespace. -/
def describe (tables : List (SortedMap String String)) (row : MemberRow) : Except Error Member :=
  (tables.mapM fun table => renameDescriptor table row.descriptor).map fun descriptors =>
    { names := row.names, descriptors }

/-- The class with all descriptors written. -/
def describeClass (tables : List (SortedMap String String)) (row : ClassRow) :
    Except Error ClassEntry := do
  let fields ← row.fields.mapM (describe tables)
  let methods ← row.methods.mapM (describe tables)
  return { names := row.names, fields, methods }

/-- The classes of a document. -/
def Document.entries (doc : Document) : Except Error (List ClassEntry) := do
  let rows ← mergeRows doc.namespaces doc.classes
  let tables := (List.range doc.namespaces.size).map (nameTable rows)
  rows.mapM (describeClass tables)

/-- Reads the rows of a text in either format. -/
def Document.read (text : String) : Except Error Document := do
  let lines := Text.numberedLines text.toList
  let format ← Format.detect lines
  match lines with
  | [] => throw (.parse 1 .emptyDocument)
  | (_, header) :: body =>
    match format with
    | .tinyV1 => Flat.read header body
    | .tinyV2 => Nested.read header body

namespace Catalog

/-- Loads a naming document. -/
def load (text : String) : Except Error Catalog := do
  let doc ← Document.read text
  let classes ← doc.entries
  return {
    format := doc.format
    namespaces := doc.namespaces
    classes
    fingerprint := Digest.fingerprintOf text }

-- ── Queries ──────────────────────────────────────────────────────────────────

/-- The position of a declared namespace. -/
def resolve (catalog : Catalog) (label : String) : Except Error Nat :=
  catalog.namespaces.resolve label

/-- All fields in document order. -/
def fields (catalog : Catalog) : List Member := catalog.classes.flatMap ClassEntry.fields

/-- All methods in document order. -/
def methods (catalog : Catalog) : List Member := catalog.classes.flatMap ClassEntry.methods

/-- The number of classes, fields and methods together. -/
def symbolCount (catalog : Catalog) : Nat :=
  catalog.classes.length + catalog.fields.length + catalog.methods.length

/-- The first class with a name, in the namespace at a position. -/
def findClass (catalog : Catalog) (ns : Nat) (name : String) : Option ClassEntry :=
  catalog.classes.find? fun c => c.name ns == name

/-- The names of the classes in one namespace by their names in another; of several classes
    with one name the last counts. -/
def classNames (catalog : Catalog) (source dest : Nat) : SortedMap String String :=
  .ofList (catalog.classes.map fun c => (c.name source, c.name dest))

/-- What loading reports. -/
def loadRecord (catalog : Catalog) : LogRecord :=
  let format := catalog.format.name
  let namespaces := catalog.namespaces.size
  let classes := catalog.classes.length
  let fields := catalog.fields.length
  let methods := catalog.methods.length
  { level := .debug
    message := s!"Loaded {format} mappings: {namespaces} namespaces, {classes} classes, "
      ++ s!"{fields} fields, {methods} methods" }

end Catalog

end Nomenclator.Naming
