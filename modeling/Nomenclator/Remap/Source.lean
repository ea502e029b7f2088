import Nomenclator.Archive.Reader
import Nomenclator.Remap.Bench

/-!
# Remapping sources

A tree of sources, an archive or a directory, is remapped to an output of the same shape.
The external tool is given the text of every `.java` unit and has to give back a text for
each of them and for nothing else. All other files are resources, which are copied or left
out as the settings say. After a failure the output is gone and the cached tables are
dropped.
-/

namespace Nomenclator.Remap

open Files (Path FileTree Content Location)

/-- A unit with its path inside the tree. -/
structure SourceFile where
  path : String
  text : String
  deriving DecidableEq, Repr

/-- What the external tool is asked to do. -/
structure SourceRequest where
  table : Naming.RenameTable
  classpath : List Path
  files : List SourceFile
  deriving DecidableEq

/-- An external tool that remaps sources. It fails with a chain of causes. -/
structure SourceTool where
  name : String
  run : SourceRequest → Except (List String) (List SourceFile)

/-- What became of a tree of sources. -/
structure SourceOutcome where
  output : Path
  sources : Nat
  resources : Nat
  deriving DecidableEq, Repr

/-- An external tool with its settings. -/
structure SourceRemapper where
  tool : SourceTool
  settings : Settings

namespace SourceRemapper

open Act

/-- Sets up a remapper with valid settings. -/
def create (tool : SourceTool) (settings : Settings) : Except Error SourceRemapper :=
  (settings.validate.mapError .settings).map fun _ => { tool, settings }

/-- Is the file a unit: does its name end in `.java`, with something before? -/
def isUnit (path : String) : Bool :=
  let name := ((Text.pieces '/' path.toList).getLast?).getD []
  decide (name.length > 5) && ".java".toList.isSuffixOf name

/-- The files of a directory, in the order of their names, with their paths inside it as they
    are shown. -/
def readDirectory (root : Path) : Act SourceRequest (List (String × Content)) := do
  match (← get).files.filesBelow root with
  | .error fault => throw (.io root fault)
  | .ok files => return files.map fun (loc, content) => (Location.lossy loc, content)

/-- The files of an archive. -/
def readArchive (path : Path) : Act SourceRequest (List (String × Content)) := do
  match (← get).files.readContent path with
  | .error fault => throw (.io path fault)
  | .ok content =>
    let some members := content.members? | throw (.archive path)
    match Archive.select (fun _ => true) members with
    | .error .closed => throw (.archive path)
    | .error .oversized => throw (.oversized path)
    | .error (.damaged fault) => throw (.io path fault)
    | .ok files => return files.map fun (name, data) => (name, .raw data)

/-- Units and resources, each in order. A unit has to be a text. -/
def sortOut : List (String × Content) →
    Except Error (List SourceFile × List (String × Content))
  | [] => .ok ([], [])
  | (path, content) :: later =>
    if isUnit path then
      match Text.decodeUtf8 content.bytes with
      | .error fault => .error (.invalidSource path fault)
      | .ok text => do
        let (units, resources) ← sortOut later
        return ({ path, text := String.ofList text } :: units, resources)
    else do
      let (units, resources) ← sortOut later
      return (units, (path, content) :: resources)

/-- Why what a tool gave back cannot be used. -/
inductive AnswerFault where
  | missing (path : String)
  | unknown (path : String)
  deriving DecidableEq, Repr

/-- The fault in words. -/
def AnswerFault.message : AnswerFault → String
  | .missing path => "no output for " ++ path
  | .unknown path => "output for unknown file " ++ path

/-- Takes the answer for every unit, in order, out of the answers. -/
def takeAnswers (answers : SortedMap String String) :
    List SourceFile → Except AnswerFault (List (String × Content) × SortedMap String String)
  | [] => .ok ([], answers)
  | unit :: later =>
    match answers.get? unit.path with
    | none => .error (.missing unit.path)
    | some text => do
      let (taken, rest) ← takeAnswers (answers.erase unit.path) later
      return ((unit.path, .raw (Text.encodeUtf8 text.toList)) :: taken, rest)

/-- Pairs units with what the tool gave back; the last text for a path counts. -/
def matchAnswers (units answers : List SourceFile) :
    Except AnswerFault (List (String × Content)) := do
  let byPath := SortedMap.ofList (answers.map fun file => (file.path, file.text))
  let (taken, rest) ← takeAnswers byPath units
  match rest.keys with
  | [] => return taken
  | extra :: _ => throw (.unknown extra)

/-- Writes files below a directory. -/
def writeDirectory (root : Path) : List (String × Content) → Act SourceRequest Unit
  | [] => return
  | (name, content) :: later => do
    let path := root.join name
    createParent path
    change path (·.write path content)
    writeDirectory root later

/-- Writes files to an archive. -/
def writeArchive (path : Path) (files : List (String × Content)) : Act SourceRequest Unit := do
  change path (·.write path (.raw []))
  match Archive.Builder.addFiles {} (files.map fun (name, content) => (name, content.bytes)) with
  | (true, builder) => change path (·.write path (.archive builder.entries))
  | (false, _) => throw (.archive path)

/-- Makes the output. -/
def produce (r : SourceRemapper) (table : Naming.RenameTable) (input output : Path)
    (classpath : List Path) : Act SourceRequest SourceOutcome := do
  let classpath ← resolveClasspath input [] classpath
  let isDirectory ← ask (·.isDir input)
  let files ← if isDirectory then readDirectory input else readArchive input
  let (units, others) ← match sortOut files with
    | .ok parts => pure parts
    | .error e => throw e
  let resources := if r.settings.passResources then others else []
  let request : SourceRequest := { table, classpath, files := units }
  modify fun b => { b with requests := b.requests ++ [request] }
  let failure (cause : String) : Error :=
    .toolFailure r.tool.name input output table.direction cause
  let answers ← match r.tool.run request with
    | .ok answers => pure answers
    | .error chain => throw (failure (": ".intercalate chain))
  let sources ← match matchAnswers units answers with
    | .ok sources => pure sources
    | .error fault => throw (failure fault.message)
  let all := (sources ++ resources).mergeSort fun a b => (compare a.1 b.1).isLE
  discardTree output
  createParent output
  if ← ask (·.isDir input) then writeDirectory output all else writeArchive output all
  return { output, sources := sources.length, resources := resources.length }

/-- Makes the output and cleans up after a failure. -/
def runJob (r : SourceRemapper) (table : Naming.RenameTable) (input output : Path)
    (classpath : List Path) : Act SourceRequest SourceOutcome := do
  let source := input.text
  let dest := output.text
  let names := table.direction.text
  report .info s!":remapping sources {source} ({names}) -> {dest}"
  orElseDo (r.produce table input output classpath) fun e => do
    let reason := e.message
    report .warn s!"Source remap of {source} failed: {reason}"
    discardTree output
    let _ ← invalidateCache

/-- Remaps sources with a given table; an archive also in place. -/
def remapWith (r : SourceRemapper) (table : Naming.RenameTable) (input output : Path)
    (classpath : List Path) : Act SourceRequest SourceOutcome := do
  let files := (← get).files
  if !files.pathExists input then throw (.missingInput input)
  else if files.pathExists output && files.isDir output != files.isDir input then
    throw (.settings (.differentShapes input.text output.text))
  else if !files.samePlace input output then r.runJob table input output classpath
  else if files.isDir input then throw (.outputIsInput output)
  else
    let dev := devPath input r.settings.devSuffix
    moveAside input dev
    orElseDo (r.runJob table dev output classpath) fun _ => moveBack input dev

/-- Remaps sources with the table of a catalog. -/
def remap (r : SourceRemapper) (catalog : Naming.Catalog) (direction : Direction)
    (input output : Path) (classpath : List Path) : Act SourceRequest SourceOutcome := do
  let table ← resolveTable catalog direction
  r.remapWith table input output classpath

end SourceRemapper

end Nomenclator.Remap
