import Nomenclator.Files.Operation
import Nomenclator.Naming.Cache
import Nomenclator.Remap.Error
import Nomenclator.Remap.Sidecar

/-!
# The bench — what remapping jobs work on

A job reads and changes a file tree and a cache of rename tables. What it reports, and the
requests that it makes to its external tool, are kept in order beside them. A job that
fails leaves the bench as it was at the failure.
-/

namespace Nomenclator.Remap

open Files (Path FileTree IoFault)

/-- The state of a job; `ρ` is the type of requests to the external tool. -/
structure Bench (ρ : Type) where
  files : FileTree := {}
  cache : Naming.Cache := {}
  now : UInt64 := 0
  log : Log := []
  requests : List ρ := []

/-- A step of a job. -/
abbrev Act (ρ α : Type) := ExceptT Error (StateM (Bench ρ)) α

namespace Act

variable {ρ α : Type}

/-- Asks a question about the file tree. -/
def ask (question : FileTree → α) : Act ρ α := do return question (← get).files

/-- Adds records to the log. -/
def reportAll (records : Log) : Act ρ Unit :=
  modify fun b => { b with log := b.log ++ records }

/-- Adds a record to the log. -/
def report (level : Level) (message : String) : Act ρ Unit := reportAll [{ level, message }]

/-- Replaces the file tree. -/
def setFiles (files : FileTree) : Act ρ Unit := modify fun b => { b with files }

/-- Changes the file tree; a failure names the path. -/
def change (path : Path) (operation : FileTree → Except IoFault FileTree) : Act ρ Unit := do
  match operation (← get).files with
  | .ok files => setFiles files
  | .error fault => throw (.io path fault)

/-- Changes the file tree, also where the operation fails. -/
def changeAll (path : Path) (operation : FileTree → Except IoFault Unit × FileTree) :
    Act ρ Unit := do
  let (result, files) := operation (← get).files
  setFiles files
  match result with
  | .ok () => return
  | .error fault => throw (.io path fault)

/-- Creates the directory in which a path lies. -/
def createParent (path : Path) : Act ρ Unit :=
  match path.parent? with
  | some parent => changeAll parent (·.createDirAll parent)
  | none => pure ()

/-- The rename table of a catalog. -/
def resolveTable (catalog : Naming.Catalog) (direction : Direction) :
    Act ρ Naming.RenameTable := do
  let (result, cache, log) := (← get).cache.resolve catalog direction
  modify fun b => { b with cache, log := b.log ++ log }
  match result with
  | .ok shared => return shared.table
  | .error e => throw (.naming e)

/-- Drops all rename tables; gives the new generation. -/
def invalidateCache : Act ρ Nat := do
  let (cache, log) := (← get).cache.invalidate
  modify fun b => { b with cache, log := b.log ++ log }
  return cache.generation

/-- The record that something could not be deleted. -/
def deleteFailed (path : Path) (fault : IoFault) : Act ρ Unit :=
  let text := path.text
  let reason := fault.message
  report .warn s!"Failed to delete {text}: {reason}"

/-- Removes an output and its sidecar. -/
def discardOutput (output : Path) : Act ρ Unit := do
  let files := (← get).files
  if files.pathExists output then
    match files.removeFile output with
    | .ok files => setFiles files
    | .error fault => deleteFailed output fault
  modify fun b => { b with files := Sidecar.discard b.files output }

/-- Removes an output that may be a directory. -/
def discardTree (output : Path) : Act ρ Unit := do
  let files := (← get).files
  if files.isDir output then
    let (result, files) := files.removeDirAll output
    setFiles files
    match result with
    | .ok () => return
    | .error fault => deleteFailed output fault
  else discardOutput output

/-- The entries of a class path without the input and without repetitions; all of them have to
    exist. -/
def resolveClasspath (input : Path) : (seen entries : List Path) → Act ρ (List Path)
  | _, [] => return []
  | seen, entry :: later => do
    if entry.sameAs input then resolveClasspath input seen later
    else if !(← ask (·.pathExists entry)) then throw (.missingClasspath entry)
    else if seen.any entry.sameAs then resolveClasspath input seen later
    else
      let rest ← resolveClasspath input (entry :: seen) later
      return entry :: rest

/-- Where an archive is moved while it is remapped in place. -/
def devPath (archive : Path) (suffix : String) : Path :=
  archive.withFileName (match archive.extension? with
    | some extension => archive.stem ++ suffix ++ "." ++ extension
    | none => archive.stem ++ suffix)

/-- Moves an archive aside. -/
def moveAside (archive dev : Path) : Act ρ Unit := do
  if ← ask (·.pathExists dev) then change dev (·.removeFile dev)
  change archive (·.rename archive dev)
  let source := archive.text
  let dest := dev.text
  report .info s!":moved {source} to {dest}"

/-- Moves an archive back. -/
def moveBack (archive dev : Path) : Act ρ Unit := do
  match (← get).files.rename dev archive with
  | .ok files => setFiles files
  | .error fault =>
    let source := archive.text
    let dest := dev.text
    let reason := fault.message
    report .warn s!"Failed to restore {source} from {dest}: {reason}"

/-- Runs a step; if it fails, runs the other one and fails all the same. -/
def orElseDo (step : Act ρ α) (cleanup : Error → Act ρ Unit) : Act ρ α :=
  tryCatch step fun e => do
    cleanup e
    throw e

end Act

end Nomenclator.Remap
