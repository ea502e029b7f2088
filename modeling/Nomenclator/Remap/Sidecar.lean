import Nomenclator.Files.Operation
import Nomenclator.Json
import Nomenclator.Log

/-!
# Sidecars — how an output was made

Next to every output stands a file that names the tool, the digest of the input, the
fingerprints of the rename tables and the flags that were used. An output is taken again
when these four agree; when it was written does not matter.
-/

namespace Nomenclator.Remap

open Files (Path FileTree IoFault)

/-- How an output was made. -/
structure Sidecar where
  tool : String
  inputDigest : String
  layers : List String
  flags : List String
  writtenAt : UInt64 := 0
  deriving DecidableEq, Repr

namespace Sidecar

/-- Were two outputs made in the same way? -/
def sameBuild (a b : Sidecar) : Bool :=
  a.tool == b.tool && a.inputDigest == b.inputDigest && a.layers == b.layers && a.flags == b.flags

/-- The sidecar's path: the output's with a suffix. -/
def pathOf (output : Path) : Path := output.append ".remap.json"

/-- Where a sidecar is written before it is put in place. -/
def temporaryPathOf (output : Path) : Path := (pathOf output).withExtension "json.tmp"

-- ── Text ─────────────────────────────────────────────────────────────────────

/-- One line of the text: a key and its value. -/
def renderEntry (key value : String) : String := "  " ++ Json.quote key ++ ": " ++ value

/-- The sidecar as a JSON text. -/
def render (s : Sidecar) : String :=
  "\x7b\n" ++ ",\n".intercalate [
    renderEntry "rewriter" (Json.quote s.tool),
    renderEntry "input_sha256" (Json.quote s.inputDigest),
    renderEntry "layers" (Json.quoteList "  " s.layers),
    renderEntry "flags" (Json.quoteList "  " s.flags),
    renderEntry "written_at_unix_ms" (toString s.writtenAt.toNat)] ++ "\n\x7d"

/-- The values of a key, in order. -/
def valuesOf (entries : List (Option String × Json.Value)) (key : String) : List Json.Value :=
  entries.filterMap fun (k, value) => if k = some key then some value else none

/-- The value of a key that has to be there once. -/
def valueOf? (entries : List (Option String × Json.Value)) (key : String) : Option Json.Value :=
  match valuesOf entries key with
  | [value] => some value
  | _ => none

/-- The time in a JSON object; without one it is zero. -/
def timeIn? (entries : List (Option String × Json.Value)) : Option UInt64 :=
  match valuesOf entries "written_at_unix_ms" with
  | [] => some 0
  | [value] => value.word?
  | _ => none

/-- Reads a sidecar from a JSON value: an object with the known keys once each and any others,
    or an array of the values in order. The time may be missing. -/
def ofJson? : Json.Value → Option Sidecar
  | .object entries => do
    if entries.any (fun e => e.1.isNone) then none
    else
      let tool ← (← valueOf? entries "rewriter").text?
      let inputDigest ← (← valueOf? entries "input_sha256").text?
      let layers ← (← valueOf? entries "layers").texts?
      let flags ← (← valueOf? entries "flags").texts?
      let writtenAt ← timeIn? entries
      return { tool, inputDigest, layers, flags, writtenAt }
  | .array [tool, digest, layers, flags] => do
    return { tool := ← tool.text?, inputDigest := ← digest.text?, layers := ← layers.texts?,
             flags := ← flags.texts? }
  | .array [tool, digest, layers, flags, time] => do
    return { tool := ← tool.text?, inputDigest := ← digest.text?, layers := ← layers.texts?,
             flags := ← flags.texts?, writtenAt := ← time.word? }
  | _ => none

/-- Reads the text of a sidecar. -/
def parse? (bytes : Bytes) : Option Sidecar := (Json.read bytes).bind ofJson?

-- ── Files ────────────────────────────────────────────────────────────────────

/-- The sidecar of an output. One that cannot be read counts as missing; one that makes no
    sense does too, with a warning. -/
def load (t : FileTree) (output : Path) : Option Sidecar × Log :=
  match t.readBytes (pathOf output) with
  | .error _ => (none, [])
  | .ok bytes =>
    match parse? bytes with
    | some s => (some s, [])
    | none =>
      let path := (pathOf output).text
      (none, [{ level := .warn, message := s!"Ignoring corrupt rewrite metadata {path}: invalid" }])

/-- Writes the sidecar of an output, in place of an older one. A failure names the path at
    which it occurred. -/
def save (t : FileTree) (output : Path) (s : Sidecar) :
    Except (Path × IoFault) Unit × FileTree :=
  match t.writeText (temporaryPathOf output) s.render with
  | .error f => (.error (temporaryPathOf output, f), t)
  | .ok t =>
    match t.rename (temporaryPathOf output) (pathOf output) with
    | .error f => (.error (pathOf output, f), t)
    | .ok t => (.ok (), t)

/-- Removes the sidecar of an output, if there is one. -/
def discard (t : FileTree) (output : Path) : FileTree :=
  match t.removeFile (pathOf output) with
  | .ok t => t
  | .error _ => t

end Sidecar

end Nomenclator.Remap
