import Nomenclator.Text.Utf8

/-!
# Deflate — expanding compressed octets

Compressed data is a sequence of blocks over a stream of bits, least significant bit of
every octet first. A block holds its octets as they are, or symbols of a prefix code that
is either fixed or described at the start of the block. A symbol is an octet, the end of
the block, or a length; a length is followed by a distance, and both together repeat what
stands at that distance before the end of the output; before its beginning there are zeros.

A prefix code is given by the lengths of its words alone: words of one length follow each
other in the order of their symbols, and longer words come after all shorter ones.

Expanding fails in one of two ways (`DeflateFault`): the bits run out, or what they say is
against the rules. The first fault from the left counts.
-/

namespace Nomenclator.Archive

/-- Why data cannot be expanded: it ends too early, or it breaks a rule. -/
inductive DeflateFault where
  | truncated
  | corrupt
  deriving DecidableEq, Repr

/-- A reading of bits, which can fail. -/
abbrev Reading := Except DeflateFault

-- ── Bits ─────────────────────────────────────────────────────────────────────

/-- The bits of octets. -/
def bitsOf (data : Bytes) : List Bool :=
  data.flatMap fun b => (List.range 8).map fun i => b.toNat.testBit i

/-- Takes a number of so many bits, least significant first. -/
def takeBits : (count : Nat) → List Bool → Reading (Nat × List Bool)
  | 0, bits => .ok (0, bits)
  | _ + 1, [] => .error .truncated
  | count + 1, bit :: bits => do
    let (value, rest) ← takeBits count bits
    return (bit.toNat + 2 * value, rest)

/-- Takes so many octets. -/
def takeOctets : (count : Nat) → List Bool → Reading (Bytes × List Bool)
  | 0, bits => .ok ([], bits)
  | count + 1, bits => do
    let (value, rest) ← takeBits 8 bits
    let (octets, rest) ← takeOctets count rest
    return (UInt8.ofNat value :: octets, rest)

-- ── Prefix codes ─────────────────────────────────────────────────────────────

/-- The greatest length of a word. -/
def wordLimit : Nat := 15

/-- A prefix code: for every length from one on, the symbols whose words have that length. -/
abbrev PrefixCode := List (List Nat)

/-- Do words of these lengths fill all the room there is? The room is counted in words of the
    greatest length; a length of zero belongs to a symbol without a word. -/
def isComplete (lengths : List Nat) : Bool :=
  let room := lengths.foldl (fun room n => if n = 0 then room else room + 1 <<< (wordLimit - n)) 0
  room == 1 <<< wordLimit

/-- Can the lengths belong to a code of a block? Room may be left over by a code without words,
    and by one whose only word is a single bit. -/
def isUsable (lengths : List Nat) : Bool :=
  match lengths.filter (· ≠ 0) with
  | [] => true
  | [length] => length == 1
  | _ => isComplete lengths

/-- The prefix code with the given lengths, one for each symbol. -/
def PrefixCode.ofLengths (lengths : List Nat) : PrefixCode :=
  (List.range wordLimit).map fun n =>
    (lengths.zipIdx.filter fun e => e.1 == n + 1).map Prod.snd

/-- The prefix code with lengths that have passed a test. -/
def PrefixCode.ofLengthsIf (isFit : List Nat → Bool) (lengths : List Nat) :
    Reading PrefixCode :=
  if isFit lengths then .ok (.ofLengths lengths) else .error .corrupt

/-- Reads a word bit by bit: `word` are the bits so far as a number, and `first` is the first
    word of that length, both doubled for the bit to come. A bit after which no word is left
    breaks the rules. -/
def PrefixCode.readFrom : PrefixCode → (word first : Nat) → List Bool → Reading (Nat × List Bool)
  | [], _, _, _ => .error .corrupt
  | _, _, _, [] => .error .truncated
  | symbols :: longer, word, first, bit :: bits =>
    let word := word + bit.toNat
    match symbols[word - first]? with
    | some symbol => .ok (symbol, bits)
    | none =>
      if longer.all List.isEmpty then .error .corrupt
      else readFrom longer (2 * word) (2 * (first + symbols.length)) bits

/-- Reads the symbol of the next word. -/
def PrefixCode.read (code : PrefixCode) (bits : List Bool) : Reading (Nat × List Bool) :=
  code.readFrom 0 0 bits

-- ── Blocks ───────────────────────────────────────────────────────────────────

/-- What the symbols from 257 on stand for: the least length, and how many bits are added. -/
def lengthTable : List (Nat × Nat) :=
  [(3, 0), (4, 0), (5, 0), (6, 0), (7, 0), (8, 0), (9, 0), (10, 0), (11, 1), (13, 1), (15, 1),
   (17, 1), (19, 2), (23, 2), (27, 2), (31, 2), (35, 3), (43, 3), (51, 3), (59, 3), (67, 4),
   (83, 4), (99, 4), (115, 4), (131, 5), (163, 5), (195, 5), (227, 5), (258, 0)]

/-- What the symbols of distances stand for: the least distance, and how many bits are added. -/
def distanceTable : List (Nat × Nat) :=
  [(1, 0), (2, 0), (3, 0), (4, 0), (5, 1), (7, 1), (9, 2), (13, 2), (17, 3), (25, 3), (33, 4),
   (49, 4), (65, 5), (97, 5), (129, 6), (193, 6), (257, 7), (385, 7), (513, 8), (769, 8),
   (1025, 9), (1537, 9), (2049, 10), (3073, 10), (4097, 11), (6145, 11), (8193, 12), (12289, 12),
   (16385, 13), (24577, 13)]

/-- The number that a symbol stands for, with the bits that are added to it. -/
def readAmount (table : List (Nat × Nat)) (symbol : Nat) (bits : List Bool) :
    Reading (Nat × List Bool) :=
  match table[symbol]? with
  | none => .error .corrupt
  | some (least, extra) => do
    let (more, bits) ← takeBits extra bits
    return (least + more, bits)

/-- Appends octets from a distance before the end, which may be among those just appended. What
    would stand before the beginning is zero. -/
def repeatBack (distance : Nat) : (count : Nat) → Array UInt8 → Array UInt8
  | 0, out => out
  | count + 1, out =>
    let octet := if out.size < distance then 0 else out.getD (out.size - distance) 0
    repeatBack distance count (out.push octet)

/-- Reads the symbols of a block up to its end. -/
def readSymbols (literals distances : PrefixCode) :
    (fuel : Nat) → Array UInt8 → List Bool → Reading (Array UInt8 × List Bool)
  | 0, _, _ => .error .truncated
  | fuel + 1, out, bits => do
    let (symbol, bits) ← literals.read bits
    if symbol < 256 then readSymbols literals distances fuel (out.push (UInt8.ofNat symbol)) bits
    else if symbol = 256 then return (out, bits)
    else
      let (count, bits) ← readAmount lengthTable (symbol - 257) bits
      let (symbol, bits) ← distances.read bits
      let (distance, bits) ← readAmount distanceTable symbol bits
      readSymbols literals distances fuel (repeatBack distance count out) bits

/-- The lengths of the fixed code for octets and lengths. -/
def fixedLengths : List Nat :=
  List.replicate 144 8 ++ List.replicate 112 9 ++ List.replicate 24 7 ++ List.replicate 8 8

/-- The order in which the lengths of the code for lengths are given. -/
def lengthOrder : List Nat := [16, 17, 18, 0, 8, 7, 9, 6, 10, 5, 11, 4, 12, 3, 13, 2, 14, 1, 15]

/-- Takes so many numbers of three bits. -/
def takeTriples : (count : Nat) → List Bool → Reading (List Nat × List Bool)
  | 0, bits => .ok ([], bits)
  | count + 1, bits => do
    let (value, rest) ← takeBits 3 bits
    let (values, rest) ← takeTriples count rest
    return (value :: values, rest)

/-- Reads `count` lengths after those that have been read, last first. Symbols from 16 on repeat
    the last length, or zero. -/
def readLengths (code : PrefixCode) (count : Nat) :
    (fuel : Nat) → (lengths : List Nat) → List Bool → Reading (List Nat × List Bool)
  | 0, _, _ => .error .truncated
  | fuel + 1, lengths, bits => do
    if lengths.length = count then return (lengths.reverse, bits)
    else if count < lengths.length then throw .corrupt
    else
      let (symbol, bits) ← code.read bits
      if symbol < 16 then readLengths code count fuel (symbol :: lengths) bits
      else if symbol = 16 then
        match lengths with
        | [] => throw .corrupt
        | last :: _ =>
          let (more, bits) ← takeBits 2 bits
          readLengths code count fuel (List.replicate (3 + more) last ++ lengths) bits
      else if symbol = 17 then
        let (more, bits) ← takeBits 3 bits
        readLengths code count fuel (List.replicate (3 + more) 0 ++ lengths) bits
      else
        let (more, bits) ← takeBits 7 bits
        readLengths code count fuel (List.replicate (11 + more) 0 ++ lengths) bits

/-- Reads the two codes that a block describes. -/
def readCodes (bits : List Bool) : Reading ((PrefixCode × PrefixCode) × List Bool) := do
  let (literals, bits) ← takeBits 5 bits
  let (distances, bits) ← takeBits 5 bits
  let (given, bits) ← takeBits 4 bits
  if 29 < literals ∨ 29 < distances then throw .corrupt
  else
    let (triples, bits) ← takeTriples (given + 4) bits
    let lengths := (List.range 19).map fun symbol =>
      ((lengthOrder.zip triples).lookup symbol).getD 0
    let code ← PrefixCode.ofLengthsIf isComplete lengths
    let count := literals + 257 + (distances + 1)
    let (lengths, bits) ← readLengths code count (count + 1) [] bits
    let first ← PrefixCode.ofLengthsIf isUsable (lengths.take (literals + 257))
    let second ← PrefixCode.ofLengthsIf isUsable (lengths.drop (literals + 257))
    return ((first, second), bits)

/-- Reads a block that holds its octets as they are: after the end of the current octet their
    number, twice, the second time with all bits turned. -/
def readPlain (out : Array UInt8) (bits : List Bool) : Reading (Array UInt8 × List Bool) := do
  let (count, bits) ← takeBits 16 (bits.drop (bits.length % 8))
  let (turned, bits) ← takeBits 16 bits
  if count + turned = 0xFFFF then
    let (octets, bits) ← takeOctets count bits
    return (out ++ octets, bits)
  else throw .corrupt

/-- Reads one block; its kind is a number of two bits. -/
def readBlock (out : Array UInt8) (bits : List Bool) : Reading (Array UInt8 × List Bool) := do
  match ← takeBits 2 bits with
  | (0, bits) => readPlain out bits
  | (1, bits) =>
    readSymbols (.ofLengths fixedLengths) (.ofLengths (List.replicate 32 5)) (bits.length + 1)
      out bits
  | (2, bits) =>
    let ((literals, distances), bits) ← readCodes bits
    readSymbols literals distances (bits.length + 1) out bits
  | _ => throw .corrupt

/-- Reads blocks up to the one that is marked as the last. -/
def readBlocks : (fuel : Nat) → Array UInt8 → List Bool → Reading (Array UInt8)
  | 0, _, _ => .error .truncated
  | fuel + 1, out, bits => do
    let (isLast, bits) ← takeBits 1 bits
    let (out, bits) ← readBlock out bits
    if isLast = 1 then return out else readBlocks fuel out bits

/-- The octets that compressed data stands for; what follows its last block does not count. -/
def inflate (data : Bytes) : Reading Bytes :=
  let bits := bitsOf data
  (readBlocks (bits.length + 1) #[] bits).map Array.toList

end Nomenclator.Archive
