import Nomenclator.Archive.Record

/-!
# Archives — the directory

An archive ends in a record that says where its directory starts and how many members it
has; a comment may follow, and anything may stand in front of the archive, which shifts all
positions. In front of the last record there can be a wide one, with room for larger
numbers, and between the two a locator that says where the wide one starts.

The last record is found by its signature, from the back; of all places where it could be,
the last one whose directory can be read counts.
-/

namespace Nomenclator.Archive

-- ── Signatures ───────────────────────────────────────────────────────────────

/-- The positions at which octets start with a mark. -/
def positionsFrom (mark : Bytes) : (index : Nat) → Bytes → List Nat
  | _, [] => []
  | index, b :: later =>
    if mark.isPrefixOf (b :: later) then index :: positionsFrom mark (index + 1) later
    else positionsFrom mark (index + 1) later

/-- The positions of a signature. -/
def positionsOf (signature : Nat) (bytes : Bytes) : List Nat :=
  positionsFrom (littleEndian 4 signature) 0 bytes

/-- The positions of a signature between two positions. -/
def positionsBetween (signature : Nat) (bytes : Bytes) (start stop : Nat) : List Nat :=
  (positionsOf signature bytes).filter fun p => start ≤ p && p + 4 ≤ stop

-- ── The end of an archive ────────────────────────────────────────────────────

/-- What the end of an archive says: how many records the directory has, where it starts, and by
    how much all positions are shifted. -/
structure Ending where
  count : Nat
  start : Nat
  shift : Nat
  deriving DecidableEq, Repr

/-- The end that the last record alone describes. The directory is looked for between the place
    where the record says it starts and the record itself; without members nothing is. -/
def plainEnding? (bytes header : Bytes) (place : Nat) : Option Ending :=
  let offset := field header 16 4
  let ending (shift : Nat) : Option Ending :=
    if field header 4 2 ≠ field header 6 2 then none
    else some { count := field header 8 2, start := offset + shift, shift }
  if field header 10 2 = 0 then ending (place - offset)
  else if place ≤ offset then none
  else do
    let start ← (positionsBetween 0x02014b50 bytes offset place).head?
    ending (start - offset)

/-- The wide record at a position, for a locator at another: it reaches up to the locator, agrees
    with it about the disk, and leaves room for the directory in front. -/
def wideRecordAt? (bytes locator : Bytes) (locatorPlace place : Nat) : Option Bytes := do
  let header ← headerAt? 0x06064b50 56 bytes place
  let size := field header 4 8
  if 44 ≤ size ∧ place + size + 12 = locatorPlace ∧ field header 20 4 = field locator 4 4
      ∧ field header 32 8 * 46 + field header 48 8 ≤ place then some header
  else none

/-- The end that a wide record describes. It is looked for between the place where the locator says
    it starts and the locator itself. -/
def wideEnding? (bytes locator : Bytes) (locatorPlace : Nat) : Option Ending := do
  let offset := field locator 8 8
  if locatorPlace ≤ offset ∨ 1 < field locator 16 4 then none
  else
    let (header, place) ← (positionsBetween 0x06064b50 bytes offset locatorPlace).findSome? fun p =>
      (wideRecordAt? bytes locator locatorPlace p).map fun header => (header, p)
    let shift := place - offset
    if field header 32 8 < field header 24 8 ∨ field header 12 2 < field header 14 2
        ∨ field header 16 4 ≠ field header 20 4 then none
    else some { count := field header 32 8, start := field header 48 8 + shift, shift }

/-- The locator of a wide record, in front of a last record at a position. -/
def locator? (bytes : Bytes) (place : Nat) : Option Bytes :=
  if place < 20 then none else headerAt? 0x07064b50 20 bytes (place - 20)

/-- The end of the archive whose last record is at a position. A wide record counts only where a
    number of the last record is at its greatest. -/
def endingAt? (bytes : Bytes) (place : Nat) : Option Ending := do
  let header ← headerAt? 0x06054b50 22 bytes place
  let _ ← slice? bytes place (22 + field header 20 2)
  let locator :=
    if field header 10 2 = 0xFFFF ∨ field header 16 4 = wideMark then locator? bytes place
    else none
  match locator with
  | some locator => wideEnding? bytes locator (place - 20)
  | none => plainEnding? bytes header place

-- ── Records ──────────────────────────────────────────────────────────────────

/-- So many records one after the other. A member starts in front of the directory. -/
def recordsAt? (bytes : Bytes) (ending : Ending) : (count start : Nat) → Option (List Record)
  | 0, _ => some []
  | count + 1, start => do
    let (record, next) ← recordAt? bytes start
    let record := { record with start := record.start + ending.shift }
    if ending.start ≤ record.start then none
    else
      let later ← recordsAt? bytes ending count next
      return record :: later

/-- Adds a record; one of the same name gives way to it, and its place is kept. -/
def addRecord (records : List Record) (record : Record) : List Record :=
  if records.any (fun r => r.name == record.name) then
    records.map fun r => if r.name == record.name then record else r
  else records ++ [record]

/-- The directory of the archive whose last record is at a position. -/
def directoryAt? (bytes : Bytes) (place : Nat) : Option (List Record) := do
  let ending ← endingAt? bytes place
  let records ← recordsAt? bytes ending ending.count ending.start
  return records.foldl addRecord []

/-- The directory of an archive: of all places where the last record could be, the last that
    makes sense counts. -/
def directory? (bytes : Bytes) : Option (List Record) :=
  (positionsOf 0x06054b50 bytes).reverse.findSome? (directoryAt? bytes)

end Nomenclator.Archive
