import Nomenclator.Naming.Error
import Nomenclator.SortedMap

/-!
# Access overrides — a requested visibility per symbol

All symbols of one set of overrides are named in one namespace. Asking for the visibility
that a symbol already has changes nothing; asking for another one is a conflict, whichever
came first. So the order in which overrides are added cannot be seen in the result, and
merging two sets is adding the entries of the second to the first: its classes, then its
methods, then its fields, each in key order.
-/

namespace Nomenclator.Access

/-- The visibility of a symbol. -/
inductive Visibility where
  | toAll
  | toSubclasses
  | toOwner
  | toPackage
  deriving DecidableEq, Repr

/-- The word for a visibility. -/
def Visibility.word : Visibility → String
  | .toAll => "public"
  | .toSubclasses => "protected"
  | .toOwner => "private"
  | .toPackage => "default"

/-- The word with the letters `A` to `Z` made small. -/
def smallLetters (word : String) : String := String.ofList (word.toList.map Char.toLower)

/-- Reads a visibility, whatever the case of its letters; `package` is another word for
    `default`. -/
def Visibility.ofWord? (word : String) : Option Visibility :=
  match smallLetters word with
  | "public" => some .toAll
  | "protected" => some .toSubclasses
  | "private" => some .toOwner
  | "default" => some .toPackage
  | "package" => some .toPackage
  | _ => none

/-- The message for a word that is no visibility. -/
def unknownVisibility (word : String) : String :=
  let small := smallLetters word
  s!"unknown access level `{small}`"

/-- What an override is about. -/
inductive Subject where
  | ofClass (name : String)
  | ofMember (kind : MemberKind) (member : MemberRef)
  deriving DecidableEq, Repr

/-- The subject in a sentence. -/
def Subject.text : Subject → String
  | .ofClass name => "class " ++ name
  | .ofMember kind member => kind.noun ++ " " ++ member.text

/-- What is wrong with a line of an access document. -/
inductive Fault where
  | missingHeader
  | badHeader
  | unsupportedVersion (version : String)
  | unknownVisibility (word : String)
  | entryColumns (word : String) (count : Nat)
  | unknownEntry (word : String)
  deriving DecidableEq, Repr

/-- The fault in words. -/
def Fault.message : Fault → String
  | .missingHeader => "missing access header"
  | .badHeader => "expected `accessWidener\tv1\t<namespace>` header"
  | .unsupportedVersion version => s!"unsupported access format version `{version}`"
  | .unknownVisibility word => Access.unknownVisibility word
  | .entryColumns word count => s!"`{word}` entry has {count} columns"
  | .unknownEntry word => s!"unknown entry kind `{word}`"

/-- Why overrides cannot be read, merged or transferred. -/
inductive Error where
  | parse (line : Nat) (fault : Fault)
  | conflict (subject : Subject) (existing requested : Visibility)
  | unresolved (symbol source dest : String)
  | namespaceMismatch (expected found : String)
  | naming (error : Naming.Error)
  deriving DecidableEq, Repr

/-- The error in words. -/
def Error.message : Error → String
  | .parse line fault =>
    let text := fault.message
    s!"Parse error at line {line}: {text}"
  | .conflict subject existing requested =>
    let symbol := subject.text
    let first := existing.word
    let second := requested.word
    s!"Conflicting access for {symbol}: {first} vs {second}"
  | .unresolved symbol source dest => s!"Missing {source} -> {dest} mapping for {symbol}"
  | .namespaceMismatch expected found =>
    s!"Namespace mismatch: expected `{expected}`, found `{found}`"
  | .naming error => "Mapping error: " ++ error.message

/-- Requested visibilities for symbols named in one namespace. -/
structure Overrides where
  label : String
  classes : SortedMap String Visibility := .empty
  methods : SortedMap MemberRef Visibility := .empty
  fields : SortedMap MemberRef Visibility := .empty
  deriving DecidableEq

namespace Overrides

/-- The members of one kind. -/
def members (o : Overrides) : MemberKind → SortedMap MemberRef Visibility
  | .field => o.fields
  | .method => o.methods

/-- The requested visibility of a subject. -/
def get? (o : Overrides) : Subject → Option Visibility
  | .ofClass name => o.classes.get? name
  | .ofMember kind member => (o.members kind).get? member

/-- The overrides in which the subject has the given visibility. -/
def set (o : Overrides) (subject : Subject) (visibility : Visibility) : Overrides :=
  match subject with
  | .ofClass name => { o with classes := o.classes.insert name visibility }
  | .ofMember .field member => { o with fields := o.fields.insert member visibility }
  | .ofMember .method member => { o with methods := o.methods.insert member visibility }

/-- Adds one override. -/
def add (o : Overrides) (subject : Subject) (visibility : Visibility) : Except Error Overrides :=
  match o.get? subject with
  | none => .ok (o.set subject visibility)
  | some existing =>
    if existing = visibility then .ok o else .error (.conflict subject existing visibility)

/-- All entries: classes, then methods, then fields, each in key order. -/
def entries (o : Overrides) : List (Subject × Visibility) :=
  o.classes.toList.map (fun e => (.ofClass e.1, e.2))
    ++ o.methods.toList.map (fun e => (.ofMember .method e.1, e.2))
    ++ o.fields.toList.map (fun e => (.ofMember .field e.1, e.2))

/-- The number of entries. -/
def size (o : Overrides) : Nat := o.classes.size + o.methods.size + o.fields.size

/-- Adds entries until one of them is in conflict. The second component holds what has been
    added in either case. -/
def addAll (o : Overrides) : List (Subject × Visibility) → Except Error Unit × Overrides
  | [] => (.ok (), o)
  | (subject, visibility) :: later =>
    match o.add subject visibility with
    | .ok o => addAll o later
    | .error e => (.error e, o)

/-- Adds the entries of another set in the same namespace. The second component holds what
    has been added in either case. -/
def merge (o other : Overrides) : Except Error Unit × Overrides :=
  if other.label ≠ o.label then (.error (.namespaceMismatch o.label other.label), o)
  else o.addAll other.entries

end Overrides

end Nomenclator.Access
