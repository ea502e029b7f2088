import Nomenclator.Files.Name
import Nomenclator.Text.Lines

/-!
# Paths — texts that name files

A path keeps the text it was written as, because reports show it. Two paths are the same
when their components agree: repeated slashes, a slash at the end and inner `.` pieces do
not count. The parts of a path (`parent?`, `fileName?`, `stem`, `extension?`) are cut from
its text.
-/

namespace Nomenclator.Files

/-- A path as written. -/
structure Path where
  text : String
  deriving DecidableEq, Repr

/-- One meaningful piece of a path. -/
inductive Component where
  | root
  | current
  | parent
  | name (s : String)
  deriving DecidableEq, Repr

namespace Path

/-- The pieces of the text between slashes. -/
def pieces (p : Path) : List String := (Text.pieces '/' p.text.toList).map String.ofList

/-- Does the path start at the root? -/
def isAbsolute (p : Path) : Bool := p.text.toList.head? == some '/'

/-- The component of a piece after the first one. -/
def component? (piece : String) : Option Component :=
  if piece = "" ∨ piece = "." then none
  else if piece = ".." then some .parent
  else some (.name piece)

/-- The component of the first piece, where `.` counts. -/
def firstComponent? (piece : String) : Option Component :=
  if piece = "." then some .current else component? piece

/-- The components of a path. -/
def components (p : Path) : List Component :=
  match p.pieces with
  | [] => []
  | first :: later =>
    (if p.isAbsolute then [.root] else (firstComponent? first).toList)
      ++ later.filterMap component?

/-- Do two paths have the same components? -/
def sameAs (p q : Path) : Bool := p.components == q.components

/-- Does the piece at a position count as a component? -/
def counts (index : Nat) (piece : String) : Bool :=
  if index = 0 then (firstComponent? piece).isSome else (component? piece).isSome

/-- The position and text of the last piece that counts. -/
def lastPiece? (p : Path) : Option (Nat × String) :=
  let numbered := (List.range p.pieces.length).zip p.pieces
  (numbered.filter fun (index, piece) => counts index piece).getLast?

/-- The first `count` pieces without those at their end that do not count. -/
def keepPieces (count : Nat) (pieces : List String) : List String :=
  let numbered := (List.range count).zip pieces
  let kept := (numbered.reverse.dropWhile fun (index, piece) => !counts index piece).reverse
  kept.map Prod.snd

/-- The path without its last component. -/
def parent? (p : Path) : Option Path :=
  match p.lastPiece? with
  | none => none
  | some (index, _) =>
    let kept := "/".intercalate (keepPieces index p.pieces)
    some ⟨if p.isAbsolute && kept.isEmpty then "/" else kept⟩

/-- The last component, if it is a name. -/
def fileName? (p : Path) : Option String :=
  match p.lastPiece? with
  | some (index, piece) =>
    match (if index = 0 then firstComponent? piece else component? piece) with
    | some (.name s) => some s
    | _ => none
  | none => none

/-- A file name before and after its last dot. A name without a dot, or whose only dot is
    its first character, has no second part. -/
def splitName (name : String) : String × Option String :=
  let reversed := name.toList.reverse
  let after := reversed.takeWhile (· != '.')
  match reversed.drop after.length with
  | [] => (name, none)
  | _ :: before =>
    if before.isEmpty then (name, none)
    else (String.ofList before.reverse, some (String.ofList after.reverse))

/-- The file name before its last dot. -/
def stem (p : Path) : String :=
  match p.fileName? with
  | some name => (splitName name).1
  | none => ""

/-- The file name after its last dot. -/
def extension? (p : Path) : Option String := p.fileName?.bind fun name => (splitName name).2

/-- The path below this one; an absolute text stands for itself. -/
def join (p : Path) (text : String) : Path :=
  if text.toList.head? = some '/' then ⟨text⟩
  else if p.text.isEmpty || p.text.toList.getLast? == some '/' then ⟨p.text ++ text⟩
  else ⟨p.text ++ "/" ++ text⟩

/-- The path with another last component. -/
def withFileName (p : Path) (name : String) : Path :=
  match p.fileName?, p.parent? with
  | some _, some parent => parent.join name
  | _, _ => p.join name

/-- The path with another extension; a path without a file name stays as it is. The old
    extension is cut off first. At the end of the text this makes a name like `..x` the
    parent directory, which takes no extension. -/
def withExtension (p : Path) (extension : String) : Path :=
  match p.lastPiece?, p.fileName? with
  | some (index, _), some name =>
    let front := String.join ((p.pieces.take index).map (· ++ "/"))
    let stem := (splitName name).1
    if stem = "." ∧ index + 1 = p.pieces.length then ⟨front ++ ".."⟩
    else ⟨front ++ stem ++ "." ++ extension⟩
  | _, _ => p

/-- Is there a slash at the end? -/
def endsInSlash (p : Path) : Bool := p.text.toList.getLast? == some '/'

/-- The path without slashes at its end; the root stays. -/
def trimmed (p : Path) : Path :=
  match p.text.toList.reverse.dropWhile (· == '/') with
  | [] => p
  | reversed => ⟨String.ofList reversed.reverse⟩

/-- The path with something written directly after it. -/
def append (p : Path) (suffix : String) : Path := ⟨p.text ++ suffix⟩

/-- The path itself, its parent, and so on, down to the last that is not empty. The argument
    bounds the number of steps. -/
def ancestorsFrom : (fuel : Nat) → Path → List Path
  | 0, _ => []
  | fuel + 1, p =>
    if p.text.isEmpty then []
    else p :: (match p.parent? with
      | some parent => ancestorsFrom fuel parent
      | none => [])

/-- The path itself, its parent, and so on, down to the last that is not empty. -/
def ancestors (p : Path) : List Path := ancestorsFrom (p.text.length + 1) p

end Path

-- ── How a path is walked ─────────────────────────────────────────────────────

/-- One step of a walk through a tree. `slash` is a slash at the end of the text: it asks for
    a directory, as `here` does. -/
inductive Step where
  | here
  | up
  | down (name : Name)
  | slash
  deriving DecidableEq, Repr

/-- Does the step go down to a name? -/
def Step.isDown : Step → Bool
  | .down _ => true
  | _ => false

/-- The step for a piece; pieces between two slashes stand for none. -/
def Step.ofPiece? (piece : String) : Option Step :=
  if piece = "" then none
  else if piece = "." then some .here
  else if piece = ".." then some .up
  else some (.down (.ofText piece))

/-- The steps of a path. An absolute one starts above every tree. -/
def Path.steps (p : Path) : List Step :=
  let start := if p.isAbsolute then [Step.up] else []
  let ending := if p.endsInSlash then [Step.slash] else []
  start ++ p.pieces.filterMap Step.ofPiece? ++ ending

/-- The last step of the path, apart from slashes after it. -/
def Path.lastStep? (p : Path) : Option Step := p.trimmed.steps.getLast?

/-- Is the last piece of the path, apart from slashes after it, a name? -/
def Path.endsInName (p : Path) : Bool :=
  match p.lastStep? with
  | some step => step.isDown
  | none => false

/-- Is there a character in the path that no path may hold? -/
def Path.holdsNul (p : Path) : Bool := p.text.toList.any (· == '\x00')

end Nomenclator.Files
