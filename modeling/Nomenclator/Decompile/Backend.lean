import Nomenclator.Decompile.Settings
import Nomenclator.Files.Tree
import Nomenclator.LineTable

/-!
# Decompilers, and what can go wrong with them
-/

namespace Nomenclator.Decompile

open Files (Path IoFault)

/-- What a decompiler is told about a class. -/
structure ClassContext where
  entryName : String
  binaryName : String
  index : Nat
  options : SortedMap String String
  libraries : List Path
  deriving DecidableEq

/-- The source of a class. -/
structure DecompiledClass where
  packageName : String
  className : String
  source : String
  report : Option LineReport := none
  deriving DecidableEq

/-- The path of a source in the archive of sources: the package with slashes for its dots,
    then the class. -/
def DecompiledClass.outputPath (c : DecompiledClass) : String :=
  let dirs := String.ofList (c.packageName.toList.map fun x => if x = '.' then '/' else x)
  if dirs.isEmpty then c.className ++ ".java" else dirs ++ "/" ++ c.className ++ ".java"

/-- What a decompiler makes of a class: a source, nothing of its own, an error with its chain
    of causes, or a crash. -/
inductive Answer where
  | source (c : DecompiledClass)
  | nothing
  | failure (chain : List String)
  | crash
  deriving DecidableEq

/-- An external decompiler. -/
structure Backend where
  name : String
  run : ClassContext → Bytes → Answer

/-- Why a job failed. That no channel can be made is no error of the job, it crashes then. -/
inductive Error where
  | workerFailure (backend className cause : String)
  | taskFailure
  | writerClosed
  | noChannel
  | settings (fault : SettingsFault)
  | archive (path : Path)
  | io (path : Path) (fault : IoFault)
  deriving DecidableEq, Repr

/-- The error in words. -/
def Error.message : Error → String
  | .workerFailure backend className cause =>
    s!"Failed to decompile {className} with `{backend}`: {cause}"
  | .taskFailure => "Task failed"
  | .writerClosed => "Output writer stopped before all sources were written"
  | .noChannel => s!"a semaphore may not have more than MAX_PERMITS permits ({channelLimit})"
  | .settings fault => "Invalid decompile config: " ++ fault.message
  | .archive path => "Archive error on " ++ path.text
  | .io path fault =>
    let text := path.text
    let reason := fault.message
    s!"IO error on {text}: {reason}"

end Nomenclator.Decompile
