import Nomenclator.Digest
import Nomenclator.Remap.Bench

/-!
# Remapping archives

A job remaps one input archive into one or more target namespaces, through an external
tool. Either every target is made, or none is left behind: after a failure all outputs and
their sidecars are gone and the cached tables are dropped. An output whose sidecar says
that it was made in the same way is taken again.

An archive is remapped in place by moving it aside and remapping it back; after a failure
it is moved back.
-/

namespace Nomenclator.Remap

open Files (Path FileTree)

/-- A rename table with what identifies it. -/
structure Layer where
  label : String
  table : Naming.RenameTable
  fingerprint : String
  deriving DecidableEq

/-- The octets that identify a layer: its label, its direction and the fingerprint of its
    catalog, separated by zeros. -/
def Layer.identity (label : String) (direction : Direction) (catalog : String) : Bytes :=
  Text.encodeUtf8 label.toList ++ 0 :: Text.encodeUtf8 direction.text.toList
    ++ 0 :: Text.encodeUtf8 catalog.toList

/-- The layer of a table that was read off the catalog with the given fingerprint. -/
def Layer.make (label : String) (table : Naming.RenameTable) (catalog : String) : Layer :=
  { label, table, fingerprint := Digest.fingerprint (identity label table.direction catalog) }

/-- What the external tool is asked to do. -/
structure Request where
  input : Path
  output : Path
  layers : List Layer
  classpath : List Path
  passResources : Bool
  renameLocals : Bool
  rebuildSourceNames : Bool
  deriving DecidableEq

/-- An external tool that remaps archives. It changes a file tree, and fails with a chain of
    causes. -/
structure Tool where
  name : String
  run : Request → FileTree → Except (List String) Unit × FileTree

/-- A chain of causes, outermost first, as one text. -/
def causeText (chain : List String) : String := ": ".intercalate chain

/-- One output of a job. -/
structure Target where
  label : String
  output : Path
  deriving DecidableEq, Repr

/-- An input, the namespace of its names, the outputs to make of it, and the class path. -/
structure Job where
  input : Path
  source : String
  targets : List Target
  classpath : List Path
  deriving DecidableEq, Repr

/-- What became of a target. -/
structure Outcome where
  label : String
  output : Path
  cached : Bool
  deriving DecidableEq, Repr

/-- An external tool with its settings, and the tables that are always applied after the
    first. -/
structure Remapper where
  tool : Tool
  settings : Settings
  layers : List Layer := []

namespace Remapper

open Act

/-- Sets up a remapper with valid settings. -/
def create (tool : Tool) (settings : Settings) : Except Error Remapper :=
  (settings.validate.mapError .settings).map fun _ => { tool, settings }

/-- Adds a table that is always applied. -/
def addLayer (r : Remapper) (label : String) (catalog : Naming.Catalog) (direction : Direction) :
    Except Error Remapper :=
  match Naming.RenameTable.ofCatalog catalog direction with
  | .ok table =>
    .ok { r with layers := r.layers ++ [Layer.make label table catalog.fingerprint] }
  | .error e => .error (.naming e)

/-- The sidecar of an output made from an input with the given digest. -/
def sidecar (r : Remapper) (inputDigest : String) (layers : List Layer) : Sidecar :=
  { tool := r.tool.name
    inputDigest
    layers := layers.map Layer.fingerprint
    flags := r.settings.flags }

/-- The request for a target. -/
def request (r : Remapper) (job : Job) (output : Path) (layers : List Layer)
    (classpath : List Path) : Request :=
  { input := job.input
    output
    layers
    classpath
    passResources := r.settings.passResources
    renameLocals := r.settings.renameLocals
    rebuildSourceNames := r.settings.rebuildSourceNames }

/-- Can the output that is there be taken again? -/
def isCurrent (output : Path) (expected : Sidecar) : Act Request Bool := do
  let files := (← get).files
  if files.isFile output then
    let (found, log) := Sidecar.load files output
    reportAll log
    match found with
    | some s => return s.sameBuild expected
    | none => return false
  else return false

/-- Runs the tool on a request. -/
def runTool (r : Remapper) (direction : Direction) (request : Request) : Act Request Unit := do
  modify fun b => { b with requests := b.requests ++ [request] }
  let (result, files) := r.tool.run request (← get).files
  setFiles files
  let failure (cause : String) : Error :=
    .toolFailure r.tool.name request.input request.output direction cause
  match result with
  | .error chain => throw (failure (causeText chain))
  | .ok () =>
    if !(← ask (·.isFile request.output)) then
      throw (failure "rewriter reported success but wrote no output")

/-- Writes the sidecar of an output. -/
def saveSidecar (output : Path) (s : Sidecar) : Act Request Unit := do
  let b ← get
  let (result, files) := Sidecar.save b.files output { s with writtenAt := b.now }
  setFiles files
  match result with
  | .ok () => return
  | .error (path, fault) => throw (.io path fault)

/-- Makes one target. With `force` an output that is there is never taken again. -/
def makeTarget (r : Remapper) (catalog : Naming.Catalog) (job : Job) (classpath : List Path)
    (inputDigest : String) (force : Bool) (target : Target) : Act Request Outcome := do
  let direction : Direction := { source := job.source, dest := target.label }
  let table ← resolveTable catalog direction
  let layers := Layer.make "primary" table catalog.fingerprint :: r.layers
  let expected := r.sidecar inputDigest layers
  let reuse ← if force then pure false else isCurrent target.output expected
  if reuse then return { label := target.label, output := target.output, cached := true }
  let source := job.input.text
  let dest := target.output.text
  let names := direction.text
  report .info s!":remapping {source} ({names}) -> {dest}"
  discardOutput target.output
  createParent target.output
  r.runTool direction (r.request job target.output layers classpath)
  saveSidecar target.output expected
  return { label := target.label, output := target.output, cached := false }

/-- Makes targets in order. -/
def makeTargets (r : Remapper) (catalog : Naming.Catalog) (job : Job) (classpath : List Path)
    (inputDigest : String) (force : Bool) : List Target → Act Request (List Outcome)
  | [] => return []
  | target :: later => do
    let outcome ← r.makeTarget catalog job classpath inputDigest force target
    let outcomes ← r.makeTargets catalog job classpath inputDigest force later
    return outcome :: outcomes

/-- Makes all targets of a job. -/
def produce (r : Remapper) (catalog : Naming.Catalog) (job : Job) (force : Bool) :
    Act Request (List Outcome) := do
  if !(← ask (·.isFile job.input)) then throw (.missingInput job.input)
  let classpath ← resolveClasspath job.input [] job.classpath
  match (← get).files.readBytes job.input with
  | .error fault => throw (.io job.input fault)
  | .ok bytes =>
    r.makeTargets catalog job classpath (Digest.fingerprint bytes) force job.targets

/-- Removes the outputs of targets. -/
def discardAll : List Target → Act Request Unit
  | [] => return
  | target :: later => do
    discardOutput target.output
    discardAll later

/-- Runs a job. Nothing is touched if a target is the input; after any other failure no
    output is left. -/
def runJob (r : Remapper) (catalog : Naming.Catalog) (job : Job) (force : Bool) :
    Act Request (List Outcome) := do
  let files := (← get).files
  match job.targets.find? fun target => files.samePlace job.input target.output with
  | some target => throw (.outputIsInput target.output)
  | none =>
    orElseDo (r.produce catalog job force) fun e => do
      let source := job.input.text
      let reason := e.message
      report .warn s!"Rewrite of {source} failed: {reason}"
      discardAll job.targets
      let _ ← invalidateCache

/-- Runs a job, taking outputs again where possible. -/
def run (r : Remapper) (catalog : Naming.Catalog) (job : Job) : Act Request (List Outcome) :=
  r.runJob catalog job false

/-- The outcome of a job with one target. -/
def onlyOutcome (outcomes : List Outcome) : Act Request Outcome :=
  match outcomes.getLast? with
  | some outcome => return outcome
  | none => throw (.settings .noOutcome)

/-- Remaps an archive in place. -/
def remapInPlace (r : Remapper) (catalog : Naming.Catalog) (archive : Path)
    (direction : Direction) (classpath : List Path) : Act Request Outcome := do
  if !(← ask (·.isFile archive)) then throw (.missingInput archive)
  let dev := devPath archive r.settings.devSuffix
  moveAside archive dev
  let job : Job :=
    { input := dev
      source := direction.source
      targets := [{ label := direction.dest, output := archive }]
      classpath }
  let outcomes ← orElseDo (r.runJob catalog job true) fun _ => moveBack archive dev
  onlyOutcome outcomes

/-- Remaps an archive to an output, in place if the two are one file. -/
def remap (r : Remapper) (catalog : Naming.Catalog) (input output : Path) (direction : Direction)
    (classpath : List Path) : Act Request Outcome := do
  if ← ask (·.samePlace input output) then r.remapInPlace catalog input direction classpath
  else
    let job : Job :=
      { input
        source := direction.source
        targets := [{ label := direction.dest, output }]
        classpath }
    let outcomes ← r.run catalog job
    onlyOutcome outcomes

/-- Forgets how outputs were made and drops all tables; gives the new generation of the
    cache. -/
def invalidate (outputs : List Path) : Act Request Nat := do
  modify fun b => { b with files := outputs.foldl Sidecar.discard b.files }
  invalidateCache

end Remapper

end Nomenclator.Remap
