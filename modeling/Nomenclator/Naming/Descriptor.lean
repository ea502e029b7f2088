/-!
# Descriptors — class references inside the type of a member

A descriptor is read from left to right. An `L` outside a reference opens one, and the
next `;` closes it; every other character stands for itself. Reading therefore never
fails: it gives a list of parts, the last of which may be a reference that no `;` closes.

* `renameClasses` replaces every reference through a partial map of class names and fails at
  the first reference, from the left, that is empty or not closed;
* `references` lists the referenced names and minds only the missing `;`.
-/

namespace Nomenclator.Descriptor

/-- A piece of a descriptor. -/
inductive Part where
  | plain (c : Char)
  | reference (name : String)
  | unclosed
  deriving DecidableEq, Repr

/-- Why a descriptor cannot be used. -/
inductive Fault where
  | unterminated
  | emptyReference
  deriving DecidableEq, Repr

/-- The fault in words. -/
def Fault.message : Fault → String
  | .unterminated => "unterminated class reference"
  | .emptyReference => "empty class reference"

/-- Reads the parts of a text. The first argument holds the characters, last first, of a
    reference that is being read. -/
def partsFrom : Option (List Char) → List Char → List Part
  | none, [] => []
  | some _, [] => [.unclosed]
  | none, c :: rest =>
    if c = 'L' then partsFrom (some []) rest else .plain c :: partsFrom none rest
  | some name, c :: rest =>
    if c = ';' then .reference (String.ofList name.reverse) :: partsFrom none rest
    else partsFrom (some (c :: name)) rest

/-- The parts of a descriptor. -/
def parts (descriptor : String) : List Part := partsFrom none descriptor.toList

/-- Writes parts with every referenced name replaced through `rename`; a name that `rename`
    does not know is kept. -/
def write (rename : String → Option String) : List Part → Except Fault (List Char)
  | [] => .ok []
  | .plain c :: rest => (write rename rest).map (c :: ·)
  | .reference name :: rest =>
    if name = "" then .error .emptyReference
    else (write rename rest).map
      (('L' :: ((rename name).getD name).toList) ++ ';' :: ·)
  | .unclosed :: _ => .error .unterminated

/-- The descriptor with its class references replaced through `rename`. -/
def renameClasses (rename : String → Option String) (descriptor : String) : Except Fault String :=
  (write rename (parts descriptor)).map String.ofList

/-- The names of the references among the parts. -/
def namesIn : List Part → Except Fault (List String)
  | [] => .ok []
  | .plain _ :: rest => namesIn rest
  | .reference name :: rest => (namesIn rest).map (name :: ·)
  | .unclosed :: _ => .error .unterminated

/-- The class names that a descriptor mentions, in order and with repetitions. -/
def references (descriptor : String) : Except Fault (List String) := namesIn (parts descriptor)

/-- Does the descriptor look like one of a method: an opening parenthesis at the start and a
    closing one somewhere? -/
def isMethod (descriptor : String) : Bool :=
  descriptor.toList.head? == some '(' && descriptor.toList.contains ')'

end Nomenclator.Descriptor
