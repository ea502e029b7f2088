import Nomenclator.Naming.RenameTable

/-!
# Joining two catalogs through a shared namespace

Every symbol of the left catalog, identified in its namespace `dest`, is renamed to the
name that the right catalog gives the symbol with the same name in the shared namespace.
Members are matched by name alone, wherever they are declared, so a member is found again
when its signature has changed; of several symbols with one shared name the last counts. A
symbol without a counterpart keeps its name.
-/

namespace Nomenclator.Naming

/-- A question for a join: the shared namespace, and the namespaces that are read on the left
    and on the right. -/
structure JoinQuery where
  shared : String
  leftDest : String
  rightDest : String
  deriving DecidableEq, Repr

/-- The names of the right catalog by shared names. -/
structure JoinIndex where
  classes : SortedMap String String
  fields : SortedMap String String
  methods : SortedMap String String
  deriving DecidableEq

/-- The index of the members of one kind. -/
def JoinIndex.members (index : JoinIndex) : MemberKind → SortedMap String String
  | .field => index.fields
  | .method => index.methods

namespace Join

/-- Names of members in one namespace by their names in the shared one. -/
def memberIndex (shared dest : Nat) (members : List Member) : SortedMap String String :=
  .ofList (members.map fun m => (m.name shared, m.name dest))

/-- The index of a catalog. -/
def index (right : Catalog) (shared dest : Nat) : JoinIndex :=
  { classes := right.classNames shared dest
    fields := memberIndex shared dest right.fields
    methods := memberIndex shared dest right.methods }

/-- The report that a shared name is used again by a member of the kind. -/
def notUnique (kind : MemberKind) (name : String) : LogRecord :=
  let noun := match kind with
    | .field => "Field"
    | .method => "Method"
  { level := .debug, message := s!"{noun} name {name} is not unique; last one wins" }

/-- One record per name that occurs among the names before it; the second component is what
    has been seen. -/
def repeats (kind : MemberKind) : (seen names : List String) → Log × List String
  | seen, [] => ([], seen)
  | seen, name :: later =>
    let (records, final) := repeats kind (name :: seen) later
    (if name ∈ seen then notUnique kind name :: records else records, final)

/-- What building the index reports: per class its fields, then its methods. -/
def indexLog (shared : Nat) : (seenFields seenMethods : List String) → List ClassEntry → Log
  | _, _, [] => []
  | seenFields, seenMethods, c :: later =>
    let (fieldLog, seenFields) := repeats .field seenFields (c.fields.map (·.name shared))
    let (methodLog, seenMethods) := repeats .method seenMethods (c.methods.map (·.name shared))
    fieldLog ++ methodLog ++ indexLog shared seenFields seenMethods later

/-- The report that a symbol keeps its name. -/
def keptName (noun text : String) : LogRecord :=
  { level := .warn, message := s!"No target mapping for {noun} {text}, keeping name" }

/-- How a member is written in a report: methods with their descriptors. -/
def memberText (kind : MemberKind) (owner : String) (key : MemberKey) : String :=
  match kind with
  | .field => owner ++ "." ++ key.name
  | .method => owner ++ "." ++ key.name ++ key.descriptor

/-- What has been joined so far. -/
structure Progress where
  table : RenameTable
  matched : Nat := 0
  unmatched : Nat := 0
  log : Log := []
  deriving DecidableEq

/-- Joins one member. -/
def addMember (index : JoinIndex) (shared dest : Nat) (kind : MemberKind) (owner : String)
    (p : Progress) (m : Member) : Progress :=
  let key := m.key dest
  match (index.members kind).get? (m.name shared) with
  | some target =>
    { p with table := p.table.setMember kind owner key target, matched := p.matched + 1 }
  | none =>
    { p with
      table := p.table.setMember kind owner key key.name
      unmatched := p.unmatched + 1
      log := p.log ++ [keptName kind.noun (memberText kind owner key)] }

/-- Joins one class with its fields and methods. -/
def addClass (index : JoinIndex) (shared dest : Nat) (p : Progress) (c : ClassEntry) : Progress :=
  let owner := c.name dest
  let named :=
    match index.classes.get? (c.name shared) with
    | some target =>
      { p with table := p.table.setClass owner target, matched := p.matched + 1 }
    | none =>
      { p with
        table := p.table.setClass owner owner
        unmatched := p.unmatched + 1
        log := p.log ++ [keptName "class" owner] }
  let withFields := c.fields.foldl (addMember index shared dest .field owner) named
  c.methods.foldl (addMember index shared dest .method owner) withFields

/-- The first record of a join. -/
def startRecord (q : JoinQuery) : LogRecord :=
  let shared := q.shared
  let left := q.leftDest
  let right := q.rightDest
  { level := .info, message := s!":joining mappings through `{shared}` ({left} -> {right})" }

/-- The last record of a join. -/
def endRecord (matched unmatched : Nat) : LogRecord :=
  let total := matched + unmatched
  { level := .info
    message := s!"Joined {total} entities ({matched} matched, {unmatched} kept their own name)" }

end Join

/-- The result of a join: the table, how many symbols found a counterpart and how many did
    not, and the log. -/
structure Joined where
  table : RenameTable
  matched : Nat
  unmatched : Nat
  log : Log
  deriving DecidableEq

/-- Joins two catalogs. All four labels have to be declared: the shared one and `leftDest` on
    the left, then the shared one and `rightDest` on the right. -/
def join (left right : Catalog) (q : JoinQuery) : Except Error Joined := do
  let leftShared ← left.resolve q.shared
  let leftDest ← left.resolve q.leftDest
  let rightShared ← right.resolve q.shared
  let rightDest ← right.resolve q.rightDest
  let index := Join.index right rightShared rightDest
  let start : Join.Progress :=
    { table := { direction := { source := q.leftDest, dest := q.rightDest } } }
  let final := left.classes.foldl (Join.addClass index leftShared leftDest) start
  return {
    table := final.table
    matched := final.matched
    unmatched := final.unmatched
    log := [Join.startRecord q] ++ Join.indexLog rightShared [] [] right.classes ++ final.log
      ++ [Join.endRecord final.matched final.unmatched] }

end Nomenclator.Naming
