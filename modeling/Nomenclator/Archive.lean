import Nomenclator.Archive.Compress
import Nomenclator.Files.Tree

/-!
# Archives — building them entry by entry, and their octets

A builder appends entries and refuses a name that is there already. `addFile` first
appends an entry for every directory on the way to the file that has not been added yet;
the set of added directories belongs to the builder's user, who may share it.

`Content.bytes` lays an archive out as octets in the ZIP format: directories are stored and
files are compressed.
-/

namespace Nomenclator

namespace Archive

open Files (ArchiveEntry Content)

/-- Appends an entry with a new name. -/
def append (entries : List ArchiveEntry) (entry : ArchiveEntry) : Option (List ArchiveEntry) :=
  if entries.any (fun e => e.name == entry.name) then none else some (entries ++ [entry])

/-- The names of the directories on the way to a file: its prefixes that end in a slash,
    shortest first. The first argument holds the characters before the text, last first. -/
def dirNamesFrom : List Char → List Char → List String
  | _, [] => []
  | before, c :: rest =>
    let upTo := c :: before
    if c = '/' then String.ofList upTo.reverse :: dirNamesFrom upTo rest
    else dirNamesFrom upTo rest

/-- The names of the directories on the way to a file. -/
def dirNames (name : String) : List String := dirNamesFrom [] name.toList

/-- An archive being built: its entries, and the directories that have been added. -/
structure Builder where
  entries : List ArchiveEntry := []
  dirs : SortedMap String Unit := .empty
  deriving DecidableEq

/-- Appends the directories among the given ones that have not been added. The flag says
    whether all could be appended. -/
def Builder.addDirs (b : Builder) : List String → Bool × Builder
  | [] => (true, b)
  | dir :: later =>
    if b.dirs.contains dir then b.addDirs later
    else
      let b := { b with dirs := b.dirs.insert dir () }
      match append b.entries { name := dir, data := [] } with
      | some entries => { b with entries }.addDirs later
      | none => (false, b)

/-- Appends a file after the directories on the way to it. The flag says whether it could be
    appended; directories that were appended stay. -/
def Builder.addFile (b : Builder) (name : String) (data : Bytes) : Bool × Builder :=
  match b.addDirs (dirNames name) with
  | (false, b) => (false, b)
  | (true, b) =>
    match append b.entries { name, data } with
    | some entries => (true, { b with entries })
    | none => (false, b)

/-- Appends files in order, up to the first that cannot be appended. -/
def Builder.addFiles (b : Builder) : List (String × Bytes) → Bool × Builder
  | [] => (true, b)
  | (name, data) :: later =>
    match b.addFile name data with
    | (false, b) => (false, b)
    | (true, b) => b.addFiles later

-- ── Octets ───────────────────────────────────────────────────────────────────

/-- One octet of the cyclic redundancy check with the reflected polynomial `0xEDB88320`. -/
def crcStep : (bits : Nat) → UInt32 → UInt32
  | 0, crc => crc
  | bits + 1, crc =>
    crcStep bits (if crc &&& 1 = 1 then (crc >>> 1) ^^^ 0xEDB88320 else crc >>> 1)

/-- The check sum of octets. -/
def crc32 (data : Bytes) : UInt32 :=
  data.foldl (fun crc b => crcStep 8 (crc ^^^ b.toUInt32)) 0xFFFFFFFF ^^^ 0xFFFFFFFF

/-- The octets of a number, least significant first, in `count` places. -/
def littleEndian : (count : Nat) → Nat → Bytes
  | 0, _ => []
  | count + 1, value => UInt8.ofNat (value % 256) :: littleEndian count (value / 256)

/-- An entry as it is written: a directory has no data, and the data of a file is compressed. -/
structure PackedEntry where
  name : Bytes
  isDir : Bool
  checksum : Nat
  size : Nat
  data : Bytes
  deriving DecidableEq, Repr

/-- Packs an entry. A name that ends in a slash is the name of a directory. -/
def PackedEntry.ofEntry (e : ArchiveEntry) : PackedEntry :=
  let name := Text.encodeUtf8 e.name.toList
  if e.name.toList.getLast? = some '/' then
    { name, isDir := true, checksum := 0, size := 0, data := [] }
  else
    { name, isDir := false, checksum := (crc32 e.data).toNat, size := e.data.length,
      data := deflate e.data }

/-- The part that the two headers of an entry have in common: the version that is needed, flags,
    the method, the first moment there is, the checksum, and sizes. -/
def PackedEntry.commonHeader (e : PackedEntry) : Bytes :=
  let flags := if e.name.all (· < 0x80) then 0 else 0x800
  littleEndian 2 20 ++ littleEndian 2 flags ++ littleEndian 2 (if e.isDir then 0 else 8)
    ++ littleEndian 2 0 ++ littleEndian 2 33 ++ littleEndian 4 e.checksum
    ++ littleEndian 4 e.data.length ++ littleEndian 4 e.size ++ littleEndian 2 e.name.length
    ++ littleEndian 2 0

/-- The header of an entry, its name and its data. -/
def PackedEntry.localPart (e : PackedEntry) : Bytes :=
  littleEndian 4 0x04034b50 ++ e.commonHeader ++ e.name ++ e.data

/-- The kind and the permissions of an entry: a directory that all may enter, or a file that
    all may read. -/
def PackedEntry.mode (e : PackedEntry) : Nat := if e.isDir then 0x41ED else 0x81A4

/-- The record of an entry in the directory of the archive. -/
def PackedEntry.centralPart (offset : Nat) (e : PackedEntry) : Bytes :=
  littleEndian 4 0x02014b50 ++ littleEndian 2 0x032D ++ e.commonHeader ++ littleEndian 2 0
    ++ littleEndian 2 0 ++ littleEndian 2 0 ++ littleEndian 2 0 ++ littleEndian 2 e.mode
    ++ littleEndian 4 offset ++ e.name

/-- The directory of the archive, for entries whose first stands at an offset. -/
def centralParts : (offset : Nat) → List PackedEntry → Bytes
  | _, [] => []
  | offset, e :: later =>
    e.centralPart offset ++ centralParts (offset + e.localPart.length) later

/-- The octets of an archive. -/
def octets (entries : List ArchiveEntry) : Bytes :=
  let entries := entries.map PackedEntry.ofEntry
  let front := entries.flatMap PackedEntry.localPart
  let directory := centralParts 0 entries
  front ++ directory ++ littleEndian 4 0x06054b50 ++ littleEndian 2 0 ++ littleEndian 2 0
    ++ littleEndian 2 entries.length ++ littleEndian 2 entries.length
    ++ littleEndian 4 directory.length ++ littleEndian 4 front.length ++ littleEndian 2 0

end Archive

/-- The octets of a file. -/
def Files.Content.bytes : Files.Content → Bytes
  | .raw bytes => bytes
  | .archive entries => Archive.octets entries

end Nomenclator
