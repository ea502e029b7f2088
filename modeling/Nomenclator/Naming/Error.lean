import Nomenclator.Naming.Descriptor
import Nomenclator.Symbol

/-!
# Errors of naming documents

`Fault` says what is wrong with a line of a document; `Error` is what loading or querying
a document can answer. Each has one function that words it.
-/

namespace Nomenclator.Naming

/-- What is wrong with a line of a naming document. -/
inductive Fault where
  | emptyDocument
  | missingHeader
  | unsupportedVersion
  | noNamespaces
  | noNamespaceColumns
  | emptyNamespace
  | repeatedNamespace (label : String)
  | flatMemberColumns (word : String) (found expected : Nat)
  | nestedMemberColumns (found expected : Nat)
  | emptyOwner
  | emptyDescriptor
  | nameCount (found expected : Nat)
  | missingName (column : Nat)
  | unknownRow (word : String)
  | unknownOwner (owner : String)
  | memberOutsideClass
  | unexpectedRow (word : String) (depth : Nat)
  | conflict (kind : SymbolKind) (symbol label earlier later : String)
  deriving DecidableEq, Repr

/-- The fault in words. -/
def Fault.message : Fault → String
  | .emptyDocument => "empty mapping document"
  | .missingHeader => "missing namespace header (expected `v1` or `tiny\t2\t0`)"
  | .unsupportedVersion => "unsupported tiny version"
  | .noNamespaces => "header declares no namespaces"
  | .noNamespaceColumns => "tiny v2 header declares no namespaces"
  | .emptyNamespace => "header declares an empty namespace"
  | .repeatedNamespace label => s!"namespace `{label}` declared twice"
  | .flatMemberColumns word found expected =>
    s!"{word} row has {found} columns, expected {expected}"
  | .nestedMemberColumns found expected => s!"member row has {found} columns, expected {expected}"
  | .emptyOwner => "empty owner"
  | .emptyDescriptor => "empty descriptor"
  | .nameCount found expected => s!"row has {found} names, header declares {expected} namespaces"
  | .missingName column => s!"missing name for namespace column {column}"
  | .unknownRow word => s!"unknown row kind `{word}`"
  | .unknownOwner owner => s!"member owner `{owner}` has no CLASS row"
  | .memberOutsideClass => "member row outside of a class"
  | .unexpectedRow word depth => s!"unexpected `{word}` row at depth {depth}"
  | .conflict kind symbol label earlier later =>
    let noun := kind.noun
    s!"conflicting declarations for {noun} `{symbol}` in namespace `{label}`: `{earlier}` vs `{later}`"

/-- Why a document cannot be loaded, or a question about one cannot be answered. -/
inductive Error where
  | parse (line : Nat) (fault : Fault)
  | unknownNamespace (label : String) (declared : List String)
  | invalidDescriptor (descriptor : String) (fault : Descriptor.Fault)
  deriving DecidableEq, Repr

/-- The error in words. -/
def Error.message : Error → String
  | .parse line fault =>
    let text := fault.message
    s!"Parse error at line {line}: {text}"
  | .unknownNamespace label declared =>
    let labels := ", ".intercalate declared
    s!"Unknown namespace `{label}` (declared: {labels})"
  | .invalidDescriptor descriptor fault =>
    let text := fault.message
    s!"Invalid descriptor `{descriptor}`: {text}"

end Nomenclator.Naming
