import Nomenclator.Log
import Nomenclator.SortedMap

/-!
# Registries of external tools

Tools are known by name. A tool registered under a name that is taken replaces the
earlier one, with a warning.
-/

namespace Nomenclator

/-- What a registry holds. -/
inductive ToolKind where
  | remapper
  | decompiler
  deriving DecidableEq, Repr

/-- The kind at the start of a sentence, and inside one. -/
def ToolKind.nouns : ToolKind → String × String
  | .remapper => ("Rewriter", "rewriter")
  | .decompiler => ("Decompiler backend", "decompiler backend")

/-- The tools of one kind. -/
structure Registry (α : Type) where
  kind : ToolKind
  tools : SortedMap String α := .empty

/-- The answer to a name that is not registered. -/
structure UnknownTool where
  kind : ToolKind
  name : String
  available : List String
  deriving DecidableEq, Repr

/-- The error in words. -/
def UnknownTool.message (e : UnknownTool) : String :=
  let noun := e.kind.nouns.2
  let name := e.name
  let available := ", ".intercalate e.available
  s!"Unknown {noun} `{name}` (available: {available})"

namespace Registry

variable {α : Type}

/-- The names of the tools, sorted. -/
def names (r : Registry α) : List String := r.tools.keys

/-- Registers a tool. -/
def register (r : Registry α) (name : String) (tool : α) : Registry α × Log :=
  let noun := r.kind.nouns.1
  let log := if r.tools.contains name then
      [{ level := .warn, message := s!"{noun} `{name}` registered twice; keeping the latest" }]
    else []
  ({ r with tools := r.tools.insert name tool }, log)

/-- The tool with a name. -/
def get (r : Registry α) (name : String) : Except UnknownTool α :=
  match r.tools.get? name with
  | some tool => .ok tool
  | none => .error { kind := r.kind, name, available := r.names }

end Registry

end Nomenclator
