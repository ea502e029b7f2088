import Nomenclator.Files.Path
import Nomenclator.SortedMap
import Nomenclator.Text.Utf8

/-!
# File trees

A tree gives every location, a list of names from the root, what is there: a file, a
directory or a symbolic link; the root itself is always a directory. Keys are sorted by
their names, so listing the nodes below a directory visits every directory before its
content, in name order.

A path is resolved by walking its steps. Links on the way are followed, at most `linkLimit`
of them; what becomes of the last name is up to the operation (`Ending`). A walk arrives
at a location whose directory exists, while there need not be anything at the location
itself. Names and paths have greatest lengths, counted in octets. The root may have a
parent, but a path that leads there and down again finds nothing.
-/

namespace Nomenclator.Files

/-- An entry of an archive; its octets are meaningless when the name stands for a directory. -/
structure ArchiveEntry where
  name : String
  data : Bytes
  deriving DecidableEq, Repr

/-- Does the entry stand for a directory? -/
def ArchiveEntry.isDir (e : ArchiveEntry) : Bool :=
  e.name.toList.getLast? == some '/' || e.name.toList.getLast? == some '\\'

/-- What a file holds: octets, or an archive with its entries in order. -/
inductive Content where
  | raw (bytes : Bytes)
  | archive (entries : List ArchiveEntry)
  deriving DecidableEq, Repr

/-- What can be at a location. -/
inductive Node where
  | file (content : Content)
  | dir
  | link (target : Path)
  deriving DecidableEq, Repr

/-- Names from the root. -/
abbrev Location := List Name

/-- The names as a text, with slashes between them. -/
def Location.lossy (loc : Location) : String := "/".intercalate (loc.map Name.lossy)

/-- A file tree. -/
structure FileTree where
  nodes : SortedMap Location Node := .empty
  deriving DecidableEq

/-- How an operation on files can fail. -/
inductive IoFault where
  | notFound
  | isADirectory
  | notADirectory
  | alreadyExists
  | directoryNotEmpty
  | invalidData
  | invalidInput
  | invalidFilename
  | unexpectedEnd
  | linkLoop
  | resourceBusy
  deriving DecidableEq, Repr

/-- The fault in words. -/
def IoFault.message : IoFault → String
  | .notFound => "entity not found"
  | .isADirectory => "is a directory"
  | .notADirectory => "not a directory"
  | .alreadyExists => "entity already exists"
  | .directoryNotEmpty => "directory not empty"
  | .invalidData => "invalid data"
  | .invalidInput => "invalid input parameter"
  | .invalidFilename => "invalid filename"
  | .unexpectedEnd => "unexpected end of file"
  | .linkLoop => "filesystem loop or indirection limit"
  | .resourceBusy => "resource busy"

namespace FileTree

/-- What is at a location. -/
def at? (t : FileTree) (loc : Location) : Option Node :=
  if loc.isEmpty then some .dir else t.nodes.get? loc

/-- The tree with a node at a location. -/
def set (t : FileTree) (loc : Location) (node : Node) : FileTree :=
  { nodes := t.nodes.insert loc node }

/-- Is the second location the first or below it? -/
def isWithin (top loc : Location) : Bool := top.isPrefixOf loc

/-- Is the second location below the first? -/
def isBelow (top loc : Location) : Bool := isWithin top loc && top != loc

/-- The tree without a location and all that is below it. -/
def remove (t : FileTree) (loc : Location) : FileTree :=
  { nodes := t.nodes.eraseWhere (isWithin loc) }

/-- The tree without what is below a location. -/
def clear (t : FileTree) (loc : Location) : FileTree :=
  { nodes := t.nodes.eraseWhere (isBelow loc) }

/-- The nodes below a location, with their locations relative to it, in order. -/
def below (t : FileTree) (loc : Location) : List (Location × Node) :=
  (t.nodes.toList.filter fun e => isBelow loc e.1).map fun e => (e.1.drop loc.length, e.2)

-- ── Resolving paths ──────────────────────────────────────────────────────────

/-- The greatest number of octets in a name. -/
def nameLimit : Nat := 255

/-- Is the name too long to be looked up? -/
def isTooLong (name : Name) : Bool := decide (nameLimit < name.octets.length)

/-- What becomes of the last name of a path:

    * `entry` — it is not looked up, so a link there is not followed;
    * `target` — it is looked up, and a link is followed;
    * `place` — the same, for a file that is to be written: a slash after it is a fault. -/
inductive Ending where
  | entry
  | target
  | place
  deriving DecidableEq, Repr

/-- Where a walk ends: at a location, at a fault, or at a link with what is left to walk. -/
inductive Walk where
  | arrive (loc : Location)
  | fault (f : IoFault)
  | follow (base : Location) (steps : List Step)
  deriving DecidableEq, Repr

/-- Walks from a directory. -/
def walk (t : FileTree) (ending : Ending) : Location → List Step → Walk
  | base, [] => .arrive base
  | base, .here :: later => t.walk ending base later
  | base, .slash :: later => t.walk ending base later
  | [], .up :: later => if later.any Step.isDown then .fault .notFound else .arrive []
  | base, .up :: later => t.walk ending base.dropLast later
  | base, .down name :: later =>
    if later.isEmpty && ending == .entry then .arrive (base ++ [name])
    else if later == [.slash] && ending == .place then .fault .isADirectory
    else if isTooLong name then .fault .invalidFilename
    else match t.at? (base ++ [name]) with
      | some .dir => t.walk ending (base ++ [name]) later
      | some (.file _) => if later.isEmpty then .arrive (base ++ [name]) else .fault .notADirectory
      | some (.link target) =>
        .follow (if target.isAbsolute then [] else base) (target.steps ++ later)
      | none => if later.isEmpty then .arrive (base ++ [name]) else .fault .notFound

/-- Walks on through links, at most as many as the argument says. -/
def walkLinks (t : FileTree) (ending : Ending) :
    (links : Nat) → Location → List Step → Except IoFault Location
  | 0, base, steps =>
    match t.walk ending base steps with
    | .arrive loc => .ok loc
    | .fault f => .error f
    | .follow .. => .error .linkLoop
  | links + 1, base, steps =>
    match t.walk ending base steps with
    | .arrive loc => .ok loc
    | .fault f => .error f
    | .follow base steps => t.walkLinks ending links base steps

/-- The greatest number of links on the way of one path. -/
def linkLimit : Nat := 40

/-- Paths have fewer octets than this. -/
def pathLimit : Nat := 4096

/-- Can the path be walked at all? The empty path stands for nothing. -/
def checkText (p : Path) : Except IoFault Unit :=
  if p.holdsNul then .error .invalidInput
  else if p.text.isEmpty then .error .notFound
  else if pathLimit ≤ p.text.utf8ByteSize then .error .invalidFilename
  else .ok ()

/-- The location of a path. -/
def resolve (t : FileTree) (ending : Ending) (p : Path) : Except IoFault Location := do
  checkText p
  t.walkLinks ending linkLimit [] p.steps

/-- Looks up what is at a location, which its name may be too long for. -/
def lookUp (t : FileTree) (loc : Location) : Except IoFault (Option Node) :=
  match loc.getLast? with
  | some name => if isTooLong name then .error .invalidFilename else .ok (t.at? loc)
  | none => .ok (t.at? loc)

/-- What a path stands for, through links. -/
def stat (t : FileTree) (p : Path) : Except IoFault Node := do
  let loc ← t.resolve .target p
  match t.at? loc with
  | some node => .ok node
  | none => .error .notFound

/-- Is there anything at the path? -/
def pathExists (t : FileTree) (p : Path) : Bool :=
  match t.stat p with
  | .ok _ => true
  | .error _ => false

/-- Is there a file at the path? -/
def isFile (t : FileTree) (p : Path) : Bool :=
  match t.stat p with
  | .ok (.file _) => true
  | _ => false

/-- Is there a directory at the path? -/
def isDir (t : FileTree) (p : Path) : Bool :=
  match t.stat p with
  | .ok .dir => true
  | _ => false

/-- The location of what a path stands for. -/
def canonicalize (t : FileTree) (p : Path) : Except IoFault Location := do
  let loc ← t.resolve .target p
  match t.at? loc with
  | some _ => .ok loc
  | none => .error .notFound

/-- The location that a path stands for, or would stand for if its last name existed. -/
def identity? (t : FileTree) (p : Path) : Option Location :=
  match t.canonicalize p with
  | .ok loc => some loc
  | .error _ => do
    let name ← p.fileName?
    let parent := match p.parent? with
      | some parent => if parent.text.isEmpty then ⟨"."⟩ else parent
      | none => ⟨"."⟩
    match t.canonicalize parent with
    | .ok loc => some (loc ++ [.ofText name])
    | .error _ => none

/-- Do two paths stand for one file? Where the tree cannot tell, their components decide. -/
def samePlace (t : FileTree) (p q : Path) : Bool :=
  match t.identity? p, t.identity? q with
  | some a, some b => a == b
  | _, _ => p.sameAs q

end FileTree

end Nomenclator.Files
