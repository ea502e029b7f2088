import Nomenclator.Archive
import Nomenclator.Text.CodePage

/-!
# Archives — the record of a member

The directory of an archive has a record for every member: its name, how its data is
packed, and where the member starts. A record ends in extra fields, each with a kind and a
size, and some kinds change what the record says: they widen its numbers, they give the name
in UTF-8, or they say that the data is sealed.

A field of a known kind has to be well formed, or there is no record. Where the octets run
out in the middle of a field, what was read before stays.
-/

namespace Nomenclator.Archive

-- ── Headers ──────────────────────────────────────────────────────────────────

/-- The number that octets stand for, least significant first. -/
def numberOf : Bytes → Nat
  | [] => 0
  | b :: later => b.toNat + 256 * numberOf later

/-- The octets from one position up to another, if there are so many. -/
def slice? (bytes : Bytes) (start count : Nat) : Option Bytes :=
  let found := (bytes.drop start).take count
  if found.length = count then some found else none

/-- The field of a header: a number of so many octets. -/
def field (header : Bytes) (start count : Nat) : Nat := numberOf ((header.drop start).take count)

/-- A header of the given size that starts with a signature of four octets. -/
def headerAt? (signature size : Nat) (bytes : Bytes) (start : Nat) : Option Bytes := do
  let header ← slice? bytes start size
  if field header 0 4 = signature then some header else none

-- ── Records ──────────────────────────────────────────────────────────────────

/-- What the directory says about a member. The octets of the name and those of the comment are
    kept for the extra fields, which refer to them by a checksum. -/
structure Record where
  name : String
  nameOctets : Bytes
  commentOctets : Bytes
  isEncrypted : Bool
  isSealed : Bool
  method : Nat
  checksum : Nat
  size : Nat
  packedSize : Nat
  start : Nat
  deriving DecidableEq, Repr

/-- A text of a record; a flag says whether it is UTF-8. -/
def decodeText (isUtf8 : Bool) (bytes : Bytes) : String :=
  String.ofList (if isUtf8 then Text.decodeLossy bytes else Text.decodeCodePage bytes)

-- ── Extra fields ─────────────────────────────────────────────────────────────

/-- What a field makes of a record, and the octets after it: none when the field is not well
    formed. Nothing is left when the octets run out. -/
abbrev Change := Option (Record × Bytes)

/-- Goes on with the next `count` octets and those after them. -/
def withOctets (r : Record) (count : Nat) (bytes : Bytes) (next : Bytes → Bytes → Change) :
    Change :=
  if bytes.length < count then some (r, []) else next (bytes.take count) (bytes.drop count)

/-- Goes on behind the next `count` octets. -/
def skipOctets (r : Record) (count : Nat) (bytes : Bytes) : Change :=
  withOctets r count bytes fun _ rest => some (r, rest)

/-- The greatest number of four octets: a wider one is among the extra fields. -/
def wideMark : Nat := 0xFFFFFFFF

/-- Goes on with a number of eight octets put into the record, if it is there at all. -/
def withWide (r : Record) (isThere : Bool) (bytes : Bytes) (put : Nat → Record)
    (next : Record → Bytes → Change) : Change :=
  if isThere then withOctets r 8 bytes fun number rest => next (put (numberOf number)) rest
  else next r bytes

/-- Wide numbers: the size, the packed size and the start. All three are there when there is room
    for them; otherwise those whose place in the record holds the mark. -/
def widen (r : Record) (size : Nat) (bytes : Bytes) : Change :=
  let isThere (number : Nat) : Bool := decide (24 ≤ size) || number == wideMark
  let used := 8 * ([r.size, r.packedSize, r.start].filter isThere).length
  withWide r (isThere r.size) bytes (fun n => { r with size := n }) fun r bytes =>
  withWide r (isThere r.packedSize) bytes (fun n => { r with packedSize := n }) fun r bytes =>
  withWide r (isThere r.start) bytes (fun n => { r with start := n }) fun r bytes =>
    if size < used then none else skipOctets r (size - used) bytes

/-- Times in a field of fixed size: one attribute with tag 1 that holds three numbers. -/
def passTimes (r : Record) (size : Nat) (bytes : Bytes) : Change :=
  if size ≠ 32 then none
  else
    withOctets r 6 bytes fun head bytes =>
      if field head 4 2 ≠ 1 then none
      else
        withOctets r 2 bytes fun span bytes =>
          if numberOf span ≠ 24 then none else skipOctets r 24 bytes

/-- Times with flags in front: three flags are known, and there is a number of four octets for
    each that is set. A field with room for one number is taken to hold one. -/
def passStamps (r : Record) (size : Nat) (bytes : Bytes) : Change :=
  withOctets r 1 bytes fun flags bytes =>
    let flags := numberOf flags
    let count := ((List.range 3).filter flags.testBit).length
    if 8 ≤ flags ∨ (size ≠ 5 ∧ size ≠ 1 + 4 * count) then none else skipOctets r (size - 1) bytes

/-- The data is sealed with a key: a version, a mark of the maker, a strength, and the method that
    the data is packed with. -/
def sealWith (r : Record) (size : Nat) (bytes : Bytes) : Change :=
  if size ≠ 7 then none
  else
    withOctets r 7 bytes fun body bytes =>
      if field body 2 2 ≠ 0x4541 ∨ field body 0 2 ∉ [1, 2] ∨ field body 4 1 ∉ [1, 2, 3] then none
      else some ({ r with isSealed := true, method := field body 5 2 }, bytes)

/-- Goes on with a text in UTF-8 that replaces other octets: a version, the checksum of the
    replaced octets, and the text. -/
def withText (r : Record) (replaced : Bytes) (size : Nat) (bytes : Bytes)
    (next : Bytes → List Char → Record) : Change :=
  withOctets r 5 bytes fun head bytes =>
    if size < 5 then none
    else
      withOctets r (size - 5) bytes fun octets bytes =>
        if field head 1 4 ≠ (crc32 replaced).toNat then none
        else
          match Text.decodeUtf8 octets with
          | .error _ => none
          | .ok text => some (next octets text, bytes)

/-- The change that a field makes, by its kind. -/
def applyField (r : Record) (kind size : Nat) (bytes : Bytes) : Change :=
  if kind = 0x0001 then widen r size bytes
  else if kind = 0x000A then passTimes r size bytes
  else if kind = 0x5455 then passStamps r size bytes
  else if kind = 0x9901 then sealWith r size bytes
  else if kind = 0x6375 then
    withText r r.commentOctets size bytes fun octets _ => { r with commentOctets := octets }
  else if kind = 0x7075 then
    withText r r.nameOctets size bytes fun octets text =>
      { r with name := String.ofList text, nameOctets := octets }
  else skipOctets r size bytes

/-- The changes that all fields make, one after the other. Every field has at least four octets,
    which bounds their number. -/
def applyFields : (fuel : Nat) → Record → Bytes → Option Record
  | 0, r, _ => some r
  | fuel + 1, r, bytes =>
    if bytes.length < 4 then some r
    else do
      let (r, rest) ← applyField r (field bytes 0 2) (field bytes 2 2) (bytes.drop 4)
      applyFields fuel r rest

-- ── Reading a record ─────────────────────────────────────────────────────────

/-- The method that stands for sealed data. -/
def sealedMethod : Nat := 99

/-- The record at a position, and the position after it. -/
def recordAt? (bytes : Bytes) (start : Nat) : Option (Record × Nat) := do
  let header ← headerAt? 0x02014b50 46 bytes start
  let nameSize := field header 28 2
  let extraSize := field header 30 2
  let commentSize := field header 32 2
  let name ← slice? bytes (start + 46) nameSize
  let extra ← slice? bytes (start + 46 + nameSize) extraSize
  let comment ← slice? bytes (start + 46 + nameSize + extraSize) commentSize
  let isUtf8 := (field header 8 2).testBit 11
  let record ← applyFields (extraSize + 1) {
    name := decodeText isUtf8 name
    nameOctets := name
    commentOctets := Text.encodeUtf8 (decodeText isUtf8 comment).toList
    isEncrypted := (field header 8 2).testBit 0
    isSealed := false
    method := field header 10 2
    checksum := field header 16 4
    size := field header 24 4
    packedSize := field header 20 4
    start := field header 42 4 } extra
  if record.method = sealedMethod ∧ !record.isSealed then none
  else return (record, start + 46 + nameSize + extraSize + commentSize)

end Nomenclator.Archive
