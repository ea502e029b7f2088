import Nomenclator.Toml.Reader

/-!
# Settings of remapping jobs

Three flags that are handed to the external tool, and the suffix of the file to which an
archive is moved while it is remapped in place.
-/

namespace Nomenclator.Remap

/-- The settings of a job. -/
structure Settings where
  passResources : Bool := true
  renameLocals : Bool := false
  rebuildSourceNames : Bool := false
  devSuffix : String := "-dev"
  deriving DecidableEq, Repr

/-- What is wrong with settings or with the paths of a job. -/
inductive SettingsFault where
  | emptySuffix
  | separatorInSuffix (suffix : String)
  | differentShapes (input output : String)
  | noOutcome
  deriving DecidableEq, Repr

/-- The fault in words. -/
def SettingsFault.message : SettingsFault → String
  | .emptySuffix => "dev_suffix must not be empty"
  | .separatorInSuffix suffix => s!"dev_suffix `{suffix}` must not contain path separators"
  | .differentShapes input output =>
    s!"{input} and {output} must both be archives or both be directories"
  | .noOutcome => "rewrite job produced no outcome"

namespace Settings

/-- For archives whose local and source file names have to be repaired. -/
def forGame : Settings := { renameLocals := true, rebuildSourceNames := true }

/-- For archives built from readable sources. -/
def forProject : Settings := {}

/-- Accepts a suffix that is not empty and holds no separator. -/
def validate (s : Settings) : Except SettingsFault Unit :=
  if s.devSuffix = "" then .error .emptySuffix
  else if s.devSuffix.toList.any (fun c => c == '/' || c == '\\') then
    .error (.separatorInSuffix s.devSuffix)
  else .ok ()

/-- The names of the flags that are set. -/
def flags (s : Settings) : List String :=
  [("pass_through_resources", s.passResources), ("rename_invalid_locals", s.renameLocals),
    ("rebuild_source_filenames", s.rebuildSourceNames)].filterMap fun (name, isSet) =>
      if isSet then some name else none

/-- Takes one entry of a configuration document; keys that mean nothing are skipped. -/
def setEntry (s : Settings) (entry : String × Toml.Value) : Option Settings :=
  match entry with
  | ("pass_through_resources", value) => do
    let .boolean b := value | none
    return { s with passResources := b }
  | ("rename_invalid_locals", value) => do
    let .boolean b := value | none
    return { s with renameLocals := b }
  | ("rebuild_source_filenames", value) => do
    let .boolean b := value | none
    return { s with rebuildSourceNames := b }
  | ("dev_suffix", value) => do
    let .text suffix := value | none
    return { s with devSuffix := suffix }
  | _ => some s

/-- Reads settings from a configuration document; what it leaves out has its default. -/
def ofToml? (text : String) : Option Settings := do
  let entries ← Toml.read text
  entries.foldlM setEntry {}

end Settings

end Nomenclator.Remap
