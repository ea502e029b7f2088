import Nomenclator.Archive.Reader
import Nomenclator.Decompile.Pool
import Nomenclator.Log
import Nomenclator.Storage

/-!
# Decompile jobs

A job decompiles every class of an archive into one archive of sources, and writes a line
table if asked to. Older outputs are removed first. The sources are written to a file next
to their place, which takes that place when all of them are there; after a failure it is
removed. A job whose queue is larger than any channel crashes before it starts its workers.
-/

namespace Nomenclator.Decompile

open Files (Path FileTree IoFault)

/-- An input archive, and where the sources and the line table go. -/
structure Job where
  input : Path
  sources : Path
  lineTable : Option Path := none
  libraries : List Path := []
  deriving DecidableEq, Repr

/-- The figures of a finished job. -/
structure Stats where
  classes : Nat
  sourcesWritten : Nat
  sourceBytes : Nat
  directories : Nat
  lineTableClasses : Nat
  deriving DecidableEq, Repr

/-- What a job works on. -/
structure Desk where
  files : FileTree := {}
  log : Log := []

/-- A step of a job. -/
abbrev Act (α : Type) := ExceptT Error (StateM Desk) α

/-- A decompiler with its settings. -/
structure Decompiler where
  backend : Backend
  settings : Settings

namespace Decompiler

/-- Sets up a decompiler with valid settings. -/
def create (backend : Backend) (settings : Settings) : Except Error Decompiler :=
  (settings.validate.mapError .settings).map fun _ => { backend, settings }

/-- Adds a record to the log. -/
def report (level : Level) (message : String) : Act Unit :=
  modify fun d => { d with log := d.log ++ [{ level, message }] }

/-- Changes the file tree; a failure names the path. -/
def change (path : Path) (operation : FileTree → Except IoFault FileTree) : Act Unit := do
  match operation (← get).files with
  | .ok files => modify fun d => { d with files }
  | .error fault => throw (.io path fault)

/-- Takes what an operation that names its own failing path leaves behind. -/
def settle (result : Except (Path × IoFault) Unit) (files : FileTree) : Act Unit := do
  modify fun d => { d with files }
  match result with
  | .ok () => return
  | .error (path, fault) => throw (.io path fault)

/-- Removes an older output, if there is one. -/
def removeStale (path : Path) : Act Unit := do
  match (← get).files.removeFile path with
  | .ok files => modify fun d => { d with files }
  | .error .notFound => return
  | .error fault => throw (.io path fault)

/-- Does an entry hold a class? -/
def isClass (entryName : String) : Bool := ".class".toList.isSuffixOf entryName.toList

/-- The classes of an archive by entry name. -/
def readClasses (path : Path) : Act (SortedMap String Bytes) := do
  match (← get).files.readContent path with
  | .error fault => throw (.io path fault)
  | .ok content =>
    let some members := content.members? | throw (.archive path)
    match Archive.select isClass members with
    | .error .closed => throw (.archive path)
    | .error .oversized => throw .taskFailure
    | .error (.damaged fault) => throw (.io path fault)
    | .ok classes => return .ofList classes

/-- The name of a class: its entry without the ending. -/
def binaryName (entryName : String) : String :=
  String.ofList (entryName.toList.take (entryName.toList.length - 6))

/-- What the decompiler is told about every class, in order. -/
def contexts (d : Decompiler) (job : Job) (classes : SortedMap String Bytes) :
    List (ClassContext × Bytes) :=
  (List.range classes.size).zip classes.toList |>.map fun (index, entryName, bytecode) =>
    ({ entryName, binaryName := binaryName entryName, index, options := d.settings.options,
       libraries := job.libraries }, bytecode)

/-- Where the sources are written at first. -/
def partialPath (sources : Path) : Path := sources.append ".partial"

/-- Creates the file for the sources; the outcome is kept for the writer. -/
def createPartial (path : Path) : Act (Except Error Unit) := do
  match (← get).files.write path (.raw []) with
  | .ok files =>
    modify fun d => { d with files }
    return .ok ()
  | .error fault => return .error (.io path fault)

/-- Removes the file for the sources. -/
def removePartial (path : Path) : Act Unit := do
  match (← get).files.removeFile path with
  | .ok files => modify fun d => { d with files }
  | .error .notFound => return
  | .error fault =>
    let text := path.text
    let reason := fault.message
    report .warn s!"Failed to delete partial output {text}: {reason}"

/-- Makes the channel to the writer. Where there can be none of this capacity, the job crashes;
    that removes an older file for the sources. -/
def makeChannel (capacity : Nat) (path : Path) : Act Unit :=
  if channelLimit < capacity then do
    removePartial path
    throw .noChannel
  else return

/-- Checks the input, removes older outputs and reads the classes. -/
def prepare (job : Job) : Act (SortedMap String Bytes) := do
  if !(← get).files.isFile job.input then throw (.io job.input .notFound)
  removeStale job.sources
  match job.lineTable with
  | some path => removeStale path
  | none => pure ()
  match job.sources.parent? with
  | some parent =>
    let (result, files) := (← get).files.createDirAll parent
    settle (result.mapError fun fault => (parent, fault)) files
  | none => pure ()
  readClasses job.input

/-- Puts the outputs of a finished pool in place. -/
def commit (job : Job) (classes : Nat) (pool : Pool) (writer : SourceWriter)
    (sources bytes : Nat) : Act Stats := do
  let path := partialPath job.sources
  change path (·.write path (.archive writer.builder.entries))
  change job.sources (·.rename path job.sources)
  match job.lineTable with
  | some dest =>
    let (result, files) := LineTable.saveFile (← get).files dest pool.lines
    settle result files
  | none => pure ()
  let input := job.input.text
  let output := job.sources.text
  report .info s!":decompiled {input} -> {output} ({sources} sources, {bytes} bytes)"
  return {
    classes
    sourcesWritten := sources
    sourceBytes := bytes
    directories := writer.builder.dirs.size
    lineTableClasses := pool.lines.classes.size }

/-- Runs a job; `runPool` says how the events of its pool follow each other. -/
def decompileWith (runPool : Plan → Pool) (d : Decompiler) (job : Job) : Act Stats := do
  let classes ← prepare job
  let count := classes.size
  let input := job.input.text
  let tool := d.backend.name
  let threads := d.settings.threads
  report .info s!":decompiling {count} classes from {input} with `{tool}` on {threads} thread(s)"
  let path := partialPath job.sources
  makeChannel d.settings.queueCapacity path
  let created ← createPartial path
  let pool := runPool {
    backend := d.backend
    classes := d.contexts job classes
    threads
    capacity := d.settings.queueCapacity
    created
    output := path }
  match pool.outcome with
  | .ok (writer, sources, bytes) => commit job count pool writer sources bytes
  | .error e =>
    match pool.failure with
    | some failure =>
      let reason := failure.message
      report .warn s!"Aborting decompilation of {input}: {reason}"
    | none => pure ()
    removePartial path
    throw e

/-- Runs a job, one class after the other. -/
def decompile (d : Decompiler) (job : Job) : Act Stats := decompileWith Pool.run d job

end Decompiler

end Nomenclator.Decompile
