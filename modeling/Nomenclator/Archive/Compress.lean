import Nomenclator.Archive.CodeLengths
import Nomenclator.Archive.Deflate
import Nomenclator.Archive.Token

/-!
# Deflate — compressing octets

The tokens of the octets are written in blocks. A short block uses the fixed code; any other
describes a code of its own, made for how often each symbol occurs in it. A block that would
not become shorter holds its octets as they are.

`deflate` writes what `inflate` expands.
-/

namespace Nomenclator.Archive

-- ── Bits ─────────────────────────────────────────────────────────────────────

/-- A number in so many bits, least significant first. -/
def numberBits (count value : Nat) : List Bool := (List.range count).map value.testBit

/-- A word of so many bits, most significant first. -/
def wordBits (count word : Nat) : List Bool := (numberBits count word).reverse

/-- The octet of at most eight bits. -/
def octetOf (bits : List Bool) : UInt8 :=
  UInt8.ofNat (bits.foldr (fun bit value => bit.toNat + 2 * value) 0)

/-- The octets of bits; the last is filled up with zeros. -/
def octetsOf : List Bool → Bytes
  | [] => []
  | a :: b :: c :: d :: e :: f :: g :: h :: rest =>
    octetOf [a, b, c, d, e, f, g, h] :: octetsOf rest
  | rest => [octetOf rest]

-- ── Words ────────────────────────────────────────────────────────────────────

/-- The symbols of a code with their words, from words of `length` bits on; `first` is the first
    word of that length. -/
def PrefixCode.wordsFrom : PrefixCode → (length first : Nat) → List (Nat × List Bool)
  | [], _, _ => []
  | symbols :: longer, length, first =>
    (symbols.zipIdx.map fun e => (e.1, wordBits length (first + e.2)))
      ++ wordsFrom longer (length + 1) (2 * (first + symbols.length))

/-- The words of a prefix code by their symbols. -/
abbrev Words := Array (List Bool)

/-- The words of the code with the given lengths. -/
def wordsOf (lengths : List Nat) : Words :=
  ((PrefixCode.ofLengths lengths).wordsFrom 1 0).foldl (fun words e => words.setIfInBounds e.1 e.2)
    (Array.replicate lengths.length [])

/-- The word of a symbol. -/
def wordFor (words : Words) (symbol : Nat) : List Bool := words.getD symbol []

-- ── Tokens ───────────────────────────────────────────────────────────────────

/-- The symbol that ends a block. -/
def endOfBlock : Nat := 256

/-- The symbol for an amount, the last whose least amount is not greater, and the bits that are
    added to it. -/
def amountOf (table : List (Nat × Nat)) (amount : Nat) : Nat × List Bool :=
  let symbol := (table.takeWhile fun row => row.1 ≤ amount).length - 1
  let row := table.getD symbol (0, 0)
  (symbol, numberBits row.2 (amount - row.1))

/-- The symbol that a token starts with. -/
def Token.symbol : Token → Nat
  | .literal octet => octet.toNat
  | .copy length _ => 257 + (amountOf lengthTable length).1

/-- The symbol for the distance of a token that is a copy. -/
def Token.distanceSymbol? : Token → Option Nat
  | .literal _ => none
  | .copy _ distance => some (amountOf distanceTable distance).1

/-- A token in words of two codes. -/
def Token.bits (literals distances : Words) : Token → List Bool
  | .literal octet => wordFor literals octet.toNat
  | .copy length distance =>
    let (symbol, more) := amountOf lengthTable length
    let (distanceSymbol, far) := amountOf distanceTable distance
    wordFor literals (257 + symbol) ++ more ++ wordFor distances distanceSymbol ++ far

/-- Tokens and the end of their block, in words of the codes with the given lengths. -/
def tokensBits (literals distances : List Nat) (tokens : List Token) : List Bool :=
  let literalWords := wordsOf literals
  let distanceWords := wordsOf distances
  tokens.flatMap (Token.bits literalWords distanceWords) ++ wordFor literalWords endOfBlock

-- ── Descriptions of codes ────────────────────────────────────────────────────

/-- How often each of the symbols below `size` occurs. -/
def tally (size : Nat) (symbols : List Nat) : List Nat :=
  let start := Array.replicate size 0
  (symbols.foldl (fun counts symbol => counts.modify symbol (· + 1)) start).toList

/-- Leaves out zeros at the end, but keeps at least so many numbers. -/
def trimZeros (least : Nat) (lengths : List Nat) : List Nat :=
  lengths.take (max least (lengths.length - (lengths.reverse.takeWhile (· == 0)).length))

/-- Equal numbers that follow each other, with their number. -/
def runs : List Nat → List (Nat × Nat)
  | [] => []
  | n :: later =>
    match runs later with
    | [] => [(n, 1)]
    | (next, count) :: rest =>
      if n = next then (n, count + 1) :: rest else (n, 1) :: (next, count) :: rest

/-- A number as a sum of equal parts and what is left over. -/
def portions (size count : Nat) : List Nat := List.replicate (count / size) size ++ [count % size]

/-- A symbol in the description of a code, with the bits that are added to it. -/
abbrev LengthEntry := Nat × List Bool

/-- The entries for so many zeros. -/
def zeroEntries (count : Nat) : List LengthEntry :=
  if count < 3 then List.replicate count (0, [])
  else if count ≤ 10 then [(17, numberBits 3 (count - 3))]
  else [(18, numberBits 7 (count - 11))]

/-- The entries for a length that comes so many times more. -/
def repeatEntries (length count : Nat) : List LengthEntry :=
  if count < 3 then List.replicate count (length, []) else [(16, numberBits 2 (count - 3))]

/-- The entries for a length that comes so many times. -/
def runEntries (run : Nat × Nat) : List LengthEntry :=
  if run.1 = 0 then (portions 138 run.2).flatMap zeroEntries
  else (run.1, []) :: (portions 6 (run.2 - 1)).flatMap (repeatEntries run.1)

/-- The description of two codes. -/
def codesBits (literals distances : List Nat) : List Bool :=
  let entries := (runs (literals ++ distances)).flatMap runEntries
  let lengths := codeLengths 7 (tally 19 (entries.map Prod.fst))
  let given := trimZeros 4 (lengthOrder.map fun symbol => lengths.getD symbol 0)
  let words := wordsOf lengths
  numberBits 5 (literals.length - 257) ++ numberBits 5 (distances.length - 1)
    ++ numberBits 4 (given.length - 4) ++ given.flatMap (numberBits 3)
    ++ entries.flatMap fun e => wordFor words e.1 ++ e.2

-- ── Blocks ───────────────────────────────────────────────────────────────────

/-- A block of tokens in the fixed code. -/
def fixedBlock (tokens : List Token) : List Bool :=
  numberBits 2 1 ++ tokensBits fixedLengths (List.replicate 32 5) tokens

/-- A block of tokens in a code of its own. -/
def ownBlock (tokens : List Token) : List Bool :=
  let literals := codeLengths wordLimit (tally 286 (endOfBlock :: tokens.map Token.symbol))
  let distances := codeLengths wordLimit (tally 30 (tokens.filterMap Token.distanceSymbol?))
  let literals := trimZeros 257 literals
  let distances := trimZeros 1 distances
  numberBits 2 2 ++ codesBits literals distances ++ tokensBits literals distances tokens

/-- A block of octets as they are, which start at a full octet; so many bits stand before the
    block. -/
def plainBlock (before : Nat) (data : Bytes) : List Bool :=
  numberBits 2 0 ++ List.replicate ((8 - (before + 2) % 8) % 8) false
    ++ numberBits 16 data.length ++ numberBits 16 (0xFFFF - data.length) ++ bitsOf data

/-- A block of tokens for octets: a short one in the fixed code, a longer one in a code of its
    own, or the octets as they are when a code would save none of them. So many bits stand before
    the block. -/
def blockBits (before : Nat) (data : Bytes) (tokens : List Token) : List Bool :=
  let size := data.length
  let packed := if size < 48 then fixedBlock tokens else ownBlock tokens
  let isLonger := size ≤ (before % 8 + packed.length) / 8 + 1
  if 32 < size ∧ isLonger ∧ size ≤ window then plainBlock before data else packed

/-- Is a block full? Its tokens are counted with the octets they take when they are kept: one for
    a literal, three for a copy, and one more for every eight tokens. Beyond `31 * 1024` octets a
    block ends when its tokens take hardly less than that. -/
def isFull (tokens kept size : Nat) : Bool :=
  let room := 1 + kept + tokens / 8
  decide (0x10000 - 8 < room) || (decide (31 * 1024 < size) && decide (size ≤ (room * 115) >>> 7))

/-- What a token takes when it is kept. -/
def Token.keptSize : Token → Nat
  | .literal _ => 1
  | .copy _ _ => 3

/-- A block being filled: its tokens, last first, what they take, and how many octets they stand
    for. -/
structure Filling where
  tokens : List Token := []
  count : Nat := 0
  kept : Nat := 0
  size : Nat := 0

/-- Adds a token. -/
def Filling.add (f : Filling) (token : Token) : Filling :=
  { tokens := token :: f.tokens, count := f.count + 1, kept := f.kept + token.keptSize,
    size := f.size + token.width }

/-- The tokens of every block. A block ends only between groups, and the last one may be empty. -/
def blocksFrom (f : Filling) : List (List Token) → List Filling
  | [] => [f]
  | group :: later =>
    let f := group.foldl Filling.add f
    if isFull f.count f.kept f.size then f :: blocksFrom {} later else blocksFrom f later

/-- Blocks for octets behind so many bits. Each starts with a bit that says whether it is the last
    one. -/
def blocksBits : (before : Nat) → (data : Bytes) → List Filling → List Bool
  | _, _, [] => []
  | before, data, f :: later =>
    let bits := later.isEmpty :: blockBits (before + 1) (data.take f.size) f.tokens.reverse
    bits ++ blocksBits (before + bits.length) (data.drop f.size) later

/-- Compressed data for octets. -/
def deflate (data : Bytes) : Bytes :=
  octetsOf (blocksBits 0 data (blocksFrom {} (tokenGroups data)))

end Nomenclator.Archive
