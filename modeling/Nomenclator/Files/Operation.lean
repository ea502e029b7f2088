import Nomenclator.Archive
import Nomenclator.Files.Tree

/-!
# Operations on file trees

The first group of operations is atomic: each either gives the changed tree or fails and
changes nothing. `createDirAll` and `removeDirAll` consist of several such steps and may
have changed the tree when they fail, so they give the tree in both cases.
-/

namespace Nomenclator.Files.FileTree

/-- The content of the file at a path. -/
def readContent (t : FileTree) (p : Path) : Except IoFault Content := do
  match ← t.stat p with
  | .file content => .ok content
  | _ => .error .isADirectory

/-- The octets of the file at a path. -/
def readBytes (t : FileTree) (p : Path) : Except IoFault Bytes :=
  (t.readContent p).map Content.bytes

/-- The text of the file at a path. -/
def readText (t : FileTree) (p : Path) : Except IoFault String := do
  let bytes ← t.readBytes p
  match Text.decodeUtf8 bytes with
  | .ok text => .ok (String.ofList text)
  | .error _ => .error .invalidData

/-- The location of the entry that a path names: a link at its end is not followed, and
    slashes at its end do not count. -/
def entryAt (t : FileTree) (p : Path) : Except IoFault Location := do
  checkText p
  t.resolve .entry p.trimmed

/-- Creates a file, or replaces the content of one that is there. -/
def write (t : FileTree) (p : Path) (content : Content) : Except IoFault FileTree := do
  let loc ← t.resolve .place p
  match t.at? loc with
  | some .dir => .error .isADirectory
  | _ => .ok (t.set loc (.file content))

/-- Writes a text to a file. -/
def writeText (t : FileTree) (p : Path) (text : String) : Except IoFault FileTree :=
  t.write p (.raw (Text.encodeUtf8 text.toList))

/-- Removes a file or a link. -/
def removeFile (t : FileTree) (p : Path) : Except IoFault FileTree := do
  let loc ← t.entryAt p
  match ← t.lookUp loc with
  | none => .error .notFound
  | some .dir => .error .isADirectory
  | some _ => if p.endsInSlash then .error .notADirectory else .ok (t.remove loc)

/-- Moves a node and all that is below it. -/
def move (t : FileTree) (source dest : Location) : FileTree :=
  let moved := t.nodes.toList.filter fun e => isWithin source e.1
  let cleared := (t.remove source).remove dest
  moved.foldl (fun t e => t.set (dest ++ e.1.drop source.length) e.2) cleared

/-- Is there anything below a location? -/
def hasChildren (t : FileTree) (loc : Location) : Bool := !(t.below loc).isEmpty

/-- Renames a file, a link or a directory. What is at the new place gives way, unless one of
    the two is a directory: then both have to be, and the new place has to be empty. Only a
    directory can be named with a slash at the end, and nothing as `.` or `..`. -/
def rename (t : FileTree) (source dest : Path) : Except IoFault FileTree := do
  if source.holdsNul || dest.holdsNul then .error .invalidInput
  let src ← t.entryAt source
  let dst ← t.entryAt dest
  if !source.endsInName || !dest.endsInName then .error .resourceBusy
  let some node ← t.lookUp src | .error .notFound
  let there ← t.lookUp dst
  if node ≠ .dir ∧ (source.endsInSlash ∨ dest.endsInSlash) then .error .notADirectory
  else if isBelow src dst then .error .invalidInput
  else if isBelow dst src then .error .directoryNotEmpty
  else if src = dst then .ok t
  else match node, there with
    | _, none => .ok (t.move src dst)
    | .dir, some .dir =>
      if t.hasChildren dst then .error .directoryNotEmpty else .ok (t.move src dst)
    | .dir, some _ => .error .notADirectory
    | _, some .dir => .error .isADirectory
    | _, some _ => .ok (t.move src dst)

/-- Creates a directory in one that exists. -/
def createDir (t : FileTree) (p : Path) : Except IoFault FileTree := do
  let loc ← t.entryAt p
  match ← t.lookUp loc with
  | some _ => .error .alreadyExists
  | none => .ok (t.set loc .dir)

/-- Creates the first of the given directories, after those that follow it where they are
    missing. -/
def createDirs (t : FileTree) : List Path → Except IoFault Unit × FileTree
  | [] => (.ok (), t)
  | p :: shorter =>
    match t.createDir p with
    | .ok t => (.ok (), t)
    | .error .notFound =>
      match t.createDirs shorter with
      | (.error f, t) => (.error f, t)
      | (.ok (), t) =>
        match t.createDir p with
        | .ok t => (.ok (), t)
        | .error f => (if t.isDir p then .ok () else .error f, t)
    | .error f => (if t.isDir p then .ok () else .error f, t)

/-- Creates a directory and those above it that are missing. The empty path stands for a
    directory that exists. -/
def createDirAll (t : FileTree) (p : Path) : Except IoFault Unit × FileTree :=
  t.createDirs p.ancestors

/-- Removes an empty directory. It has to be named: not as `.` or `..`, and not by a link. -/
def removeDir (t : FileTree) (p : Path) : Except IoFault FileTree := do
  let loc ← t.entryAt p
  match p.lastStep? with
  | some (.down _) =>
    match ← t.lookUp loc with
    | none => .error .notFound
    | some .dir => if t.hasChildren loc then .error .directoryNotEmpty else .ok (t.remove loc)
    | some _ => .error .notADirectory
  | some .up => .error .directoryNotEmpty
  | some .here => .error .invalidInput
  | _ => .error .resourceBusy

/-- Removes a directory with all that is below it; of a link only the link. The directory is
    emptied first and removed then, and it is no fault if its path leads nowhere any more: so
    `a/b/..` empties `a`, and goes through a directory that was in there. -/
def removeDirAll (t : FileTree) (p : Path) : Except IoFault Unit × FileTree :=
  match t.resolve .entry p with
  | .error f => (.error f, t)
  | .ok loc =>
    match t.lookUp loc with
    | .error f => (.error f, t)
    | .ok none => (.error .notFound, t)
    | .ok (some (.file _)) => (.error .notADirectory, t)
    | .ok (some (.link _)) => (.ok (), t.remove loc)
    | .ok (some .dir) =>
      let t := t.clear loc
      match t.removeDir p with
      | .ok t => (.ok (), t)
      | .error .notFound => (.ok (), t)
      | .error f => (.error f, t)

/-- The files below the directory at a path, with their relative locations, in order. Links
    are neither followed nor listed. -/
def filesBelow (t : FileTree) (p : Path) : Except IoFault (List (Location × Content)) := do
  let loc ← t.resolve .target p
  match t.at? loc with
  | none => .error .notFound
  | some _ =>
    .ok ((t.below loc).filterMap fun
      | (name, .file content) => some (name, content)
      | _ => none)

-- ── Whole trees ──────────────────────────────────────────────────────────────

/-- Puts a node at a path, after the directories on the way to it. A directory makes room for
    a file or a link; a file that is written to a link goes where the link points. -/
def install (t : FileTree) (p : Path) (node : Node) : Except IoFault FileTree :=
  let t := match p.parent? with
    | some parent => (t.createDirAll parent).2
    | none => t
  let cleared := if t.isDir p then (t.removeDirAll p).2 else t
  match node with
  | .dir => .ok (t.createDirAll p).2
  | .file content => cleared.write p content
  | .link _ => (cleared.resolve .entry p).map fun loc => cleared.set loc node

/-- Removes what is at a path, if anything is. -/
def discard (t : FileTree) (p : Path) : FileTree :=
  match t.removeFile p with
  | .ok t => t
  | .error _ => (t.removeDirAll p).2

/-- All nodes by their paths from the root, as they are shown. -/
def listing (t : FileTree) : SortedMap String Node :=
  .ofList (t.nodes.toList.map fun (loc, node) => (Location.lossy loc, node))

end Nomenclator.Files.FileTree
