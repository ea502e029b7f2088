import Nomenclator.Files.Tree
import Nomenclator.Naming.Error
import Nomenclator.Naming.Namespaces
import Nomenclator.Remap.Settings

/-!
# Errors of remapping jobs
-/

namespace Nomenclator.Remap

open Files (Path IoFault)

/-- Why a job failed. -/
inductive Error where
  | toolFailure (tool : String) (input output : Path) (direction : Direction) (cause : String)
  | missingInput (path : Path)
  | outputIsInput (path : Path)
  | invalidSource (name : String) (fault : Text.Utf8Fault)
  | missingClasspath (path : Path)
  | settings (fault : SettingsFault)
  | badConfiguration
  | naming (error : Naming.Error)
  | archive (path : Path)
  | oversized (path : Path)
  | io (path : Path) (fault : IoFault)
  deriving DecidableEq, Repr

/-- The error in words. -/
def Error.message : Error → String
  | .toolFailure tool input output direction cause =>
    let source := input.text
    let dest := output.text
    let names := direction.text
    s!"Failed to rewrite {source} -> {dest} ({names}) with `{tool}`: {cause}"
  | .missingInput path => "Input archive not found: " ++ path.text
  | .outputIsInput path =>
    let text := path.text
    s!"Output {text} is the input archive; rewrite it in place instead"
  | .invalidSource name fault =>
    let reason := fault.message
    s!"Invalid source file {name}: {reason}"
  | .missingClasspath path => "Classpath entry not found: " ++ path.text
  | .settings fault => "Invalid rewrite config: " ++ fault.message
  | .badConfiguration => "TOML error"
  | .naming error => "Mapping error: " ++ error.message
  | .archive path => "Archive error on " ++ path.text
  | .oversized path => "No room for a member of " ++ path.text
  | .io path fault =>
    let text := path.text
    let reason := fault.message
    s!"IO error on {text}: {reason}"

/-- Reads settings from a configuration document and checks them. -/
def Settings.ofToml (text : String) : Except Error Settings :=
  match Settings.ofToml? text with
  | none => .error .badConfiguration
  | some s => (s.validate.mapError .settings).map fun _ => s

end Nomenclator.Remap
