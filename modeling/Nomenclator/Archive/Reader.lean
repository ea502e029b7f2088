import Nomenclator.Archive.Deflate
import Nomenclator.Archive.Directory

/-!
# Archives — reading their members

A member starts with a header of its own, behind which its data lies, packed as the record
in the directory says.

An archive is readable when its directory is. A member can be out of reach all the same
(`MemberFault`): when its header is missing, when it is sealed or packed in an unknown way,
when there can be no room for it, or when its data is damaged.
-/

namespace Nomenclator

open Files (ArchiveEntry IoFault)

namespace Archive

-- ── Members ──────────────────────────────────────────────────────────────────

/-- Why a member is out of reach: it cannot be opened, it is said to be larger than any memory,
    or its data cannot be read. -/
inductive MemberFault where
  | closed
  | oversized
  | damaged (fault : IoFault)
  deriving DecidableEq, Repr

/-- A member of an archive; its size is the one that the directory gives. -/
structure Member where
  name : String
  size : Nat
  data : Except MemberFault Bytes

/-- Data that has to have a checksum. -/
def checked (checksum : Nat) (data : Bytes) : Except MemberFault Bytes :=
  if (crc32 data).toNat = checksum then .ok data else .error (.damaged .invalidData)

/-- The data of a member: as it is, or deflated. -/
def unpack (bytes : Bytes) (r : Record) : Except MemberFault Bytes :=
  match headerAt? 0x04034b50 30 bytes r.start with
  | none => .error .closed
  | some header =>
    let start := r.start + 30 + field header 26 2 + field header 28 2
    let packed := (bytes.drop start).take r.packedSize
    if r.isEncrypted || r.isSealed then .error .closed
    else if r.method = 0 then checked r.checksum packed
    else if r.method = 8 then
      match inflate packed with
      | .ok data => checked r.checksum data
      | .error .truncated => .error (.damaged .unexpectedEnd)
      | .error .corrupt => .error (.damaged .invalidInput)
    else .error .closed

/-- The members of an archive. -/
def members? (bytes : Bytes) : Option (List Member) :=
  (directory? bytes).map fun records => records.map fun r => ⟨r.name, r.size, unpack bytes r⟩

/-- Does the name of a member stand for a directory? -/
def isDirName (name : String) : Bool := ArchiveEntry.isDir { name, data := [] }

/-- The size from which on there is no room for a member. -/
def sizeLimit : Nat := 1 <<< 63

/-- The files among the members whose names are wanted, in order. All members have to be open;
    room is made for each of these before its data is read, and the data has to be sound. -/
def select (wanted : String → Bool) : List Member → Except MemberFault (List (String × Bytes))
  | [] => .ok []
  | m :: later =>
    match m.data with
    | .error .closed => .error .closed
    | data =>
      if isDirName m.name || !wanted m.name then select wanted later
      else if sizeLimit ≤ m.size then .error .oversized
      else do
        let data ← data
        let files ← select wanted later
        return (m.name, data) :: files

end Archive

namespace Files.Content

open Archive

/-- The members of a file that is an archive. -/
def members? : Content → Option (List Member)
  | .raw bytes => Archive.members? bytes
  | .archive entries => some (entries.map fun e => ⟨e.name, e.data.length, .ok e.data⟩)

/-- The entry of a member, if it can be read. -/
def entry? (m : Member) : Option ArchiveEntry :=
  match m.data with
  | .ok data => some { name := m.name, data }
  | .error _ => none

/-- Does a file start with the mark of an archive? Octets before the first member are allowed,
    so an archive can lack it. -/
def isMarked : Content → Bool
  | .raw bytes => [0x50, 0x4b].isPrefixOf bytes
  | .archive _ => true

/-- The entries of a file that is marked as an archive and all of whose members can be read. -/
def entries? (c : Content) : Option (List ArchiveEntry) := do
  if c.isMarked then (← c.members?).mapM entry? else none

end Files.Content

end Nomenclator
