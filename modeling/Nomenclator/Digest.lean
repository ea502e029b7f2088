import Nomenclator.Text.Utf8

/-!
# Digests — SHA-256 over octet lists

The schedule of a block is kept as a window of sixteen words that slides along the
rounds: every round uses the first word of the window, and the word that enters at its
end is computed from the window alone.
-/

namespace Nomenclator.Digest

/-- The working state: eight words of 32 bits. -/
structure State where
  a : UInt32
  b : UInt32
  c : UInt32
  d : UInt32
  e : UInt32
  f : UInt32
  g : UInt32
  h : UInt32
  deriving DecidableEq, Repr

/-- The state before the first block: the fractional bits of the square roots of the first
    eight primes. -/
def State.initial : State :=
  { a := 0x6a09e667, b := 0xbb67ae85, c := 0x3c6ef372, d := 0xa54ff53a,
    e := 0x510e527f, f := 0x9b05688c, g := 0x1f83d9ab, h := 0x5be0cd19 }

/-- The words of a state in order. -/
def State.words (s : State) : List UInt32 := [s.a, s.b, s.c, s.d, s.e, s.f, s.g, s.h]

/-- The word-wise sum of two states. -/
def State.add (s t : State) : State :=
  { a := s.a + t.a, b := s.b + t.b, c := s.c + t.c, d := s.d + t.d,
    e := s.e + t.e, f := s.f + t.f, g := s.g + t.g, h := s.h + t.h }

/-- One constant per round: the fractional bits of the cube roots of the first 64 primes. -/
def roundConstants : List UInt32 :=
  [0x428a2f98, 0x71374491, 0xb5c0fbcf, 0xe9b5dba5, 0x3956c25b, 0x59f111f1, 0x923f82a4, 0xab1c5ed5,
   0xd807aa98, 0x12835b01, 0x243185be, 0x550c7dc3, 0x72be5d74, 0x80deb1fe, 0x9bdc06a7, 0xc19bf174,
   0xe49b69c1, 0xefbe4786, 0x0fc19dc6, 0x240ca1cc, 0x2de92c6f, 0x4a7484aa, 0x5cb0a9dc, 0x76f988da,
   0x983e5152, 0xa831c66d, 0xb00327c8, 0xbf597fc7, 0xc6e00bf3, 0xd5a79147, 0x06ca6351, 0x14292967,
   0x27b70a85, 0x2e1b2138, 0x4d2c6dfc, 0x53380d13, 0x650a7354, 0x766a0abb, 0x81c2c92e, 0x92722c85,
   0xa2bfe8a1, 0xa81a664b, 0xc24b8b70, 0xc76c51a3, 0xd192e819, 0xd6990624, 0xf40e3585, 0x106aa070,
   0x19a4c116, 0x1e376c08, 0x2748774c, 0x34b0bcb5, 0x391c0cb3, 0x4ed8aa4a, 0x5b9cca4f, 0x682e6ff3,
   0x748f82ee, 0x78a5636f, 0x84c87814, 0x8cc70208, 0x90befffa, 0xa4506ceb, 0xbef9a3f7, 0xc67178f2]

/-- Rotation to the right by `n` places, for `0 < n < 32`. -/
def rotateRight (x : UInt32) (n : UInt32) : UInt32 := (x >>> n) ||| (x <<< (32 - n))

/-- The word that enters the window: it depends on its first, second, tenth and fifteenth. -/
def nextWord (window : List UInt32) : UInt32 :=
  let early := window.getD 1 0
  let late := window.getD 14 0
  let s0 := rotateRight early 7 ^^^ rotateRight early 18 ^^^ (early >>> 3)
  let s1 := rotateRight late 17 ^^^ rotateRight late 19 ^^^ (late >>> 10)
  window.getD 0 0 + s0 + window.getD 9 0 + s1

/-- One round with the constant `k` and the schedule word `w`. -/
def State.round (s : State) (k w : UInt32) : State :=
  let s1 := rotateRight s.e 6 ^^^ rotateRight s.e 11 ^^^ rotateRight s.e 25
  let choice := (s.e &&& s.f) ^^^ ((~~~ s.e) &&& s.g)
  let t1 := s.h + s1 + choice + k + w
  let s0 := rotateRight s.a 2 ^^^ rotateRight s.a 13 ^^^ rotateRight s.a 22
  let majority := (s.a &&& s.b) ^^^ (s.a &&& s.c) ^^^ (s.b &&& s.c)
  { a := t1 + (s0 + majority), b := s.a, c := s.b, d := s.c,
    e := s.d + t1, f := s.e, g := s.f, h := s.g }

/-- The rounds for the given constants, sliding the window by one word each. -/
def rounds : List UInt32 → List UInt32 → State → State
  | [], _, s => s
  | k :: later, window, s =>
    rounds later (window.drop 1 ++ [nextWord window]) (s.round k (window.getD 0 0))

/-- The big-endian words of a list of octets. -/
def wordsOf : Bytes → List UInt32
  | b₁ :: b₂ :: b₃ :: b₄ :: rest =>
    (b₁.toUInt32 <<< 24 ||| b₂.toUInt32 <<< 16 ||| b₃.toUInt32 <<< 8 ||| b₄.toUInt32)
      :: wordsOf rest
  | _ => []

/-- The state after the first `blocks` blocks of sixteen words. -/
def absorb : (blocks : Nat) → List UInt32 → State → State
  | 0, _, s => s
  | n + 1, words, s =>
    absorb n (words.drop 16) (s.add (rounds roundConstants (words.take 16) s))

/-- The octets of a number, most significant first, in `count` places. -/
def bigEndian : (count : Nat) → Nat → Bytes
  | 0, _ => []
  | n + 1, value => bigEndian n (value / 256) ++ [UInt8.ofNat (value % 256)]

/-- The message followed by a one bit, zeros and its length in bits, a multiple of 64 octets
    long. -/
def pad (message : Bytes) : Bytes :=
  message ++ [0x80] ++ List.replicate ((119 - message.length % 64) % 64) 0
    ++ bigEndian 8 (message.length * 8)

/-- The SHA-256 digest of a message: 32 octets. -/
def sha256 (message : Bytes) : Bytes :=
  let words := wordsOf (pad message)
  (absorb (words.length / 16) words .initial).words.flatMap fun w => bigEndian 4 w.toNat

/-- Two lower-case hexadecimal digits per octet. -/
def hex (bytes : Bytes) : String :=
  String.ofList (bytes.flatMap fun b => [Nat.digitChar (b.toNat / 16), Nat.digitChar (b.toNat % 16)])

/-- The digest of a message in hexadecimal digits. -/
def fingerprint (message : Bytes) : String := hex (sha256 message)

/-- The fingerprint of the octets of a text. -/
def fingerprintOf (text : String) : String := fingerprint (Text.encodeUtf8 text.toList)

end Nomenclator.Digest
