/-!
# UTF-8 — decoding that says where a text stops being valid

A fault names the index of the first octet of the bad sequence. It is *incomplete* when
the octets end inside a sequence that could still have become valid, and *invalid*
otherwise, with the number of octets that a reader skips.
-/

namespace Nomenclator

/-- A sequence of octets. -/
abbrev Bytes := List UInt8

namespace Text

/-- Why a sequence of octets is not a text. -/
inductive Utf8Fault where
  | invalid (length index : Nat)
  | incomplete (index : Nat)
  deriving DecidableEq, Repr

/-- The fault in words. -/
def Utf8Fault.message : Utf8Fault → String
  | .invalid length index => s!"invalid utf-8 sequence of {length} bytes from index {index}"
  | .incomplete index => s!"incomplete utf-8 byte sequence from index {index}"

/-- The octets of a text. -/
def encodeUtf8 (text : List Char) : Bytes := text.flatMap String.utf8EncodeChar

/-- Does the octet continue a sequence? -/
def isContinuation (b : UInt8) : Bool := 0x80 ≤ b && b ≤ 0xBF

/-- May `second` follow the first octet of a sequence of three or four octets? The bounds
    leave out overlong forms, surrogates and values beyond the last code point. -/
def secondFits (first second : UInt8) : Bool :=
  if first = 0xE0 then 0xA0 ≤ second && second ≤ 0xBF
  else if first = 0xED then 0x80 ≤ second && second ≤ 0x9F
  else if first = 0xF0 then 0x90 ≤ second && second ≤ 0xBF
  else if first = 0xF4 then 0x80 ≤ second && second ≤ 0x8F
  else isContinuation second

/-- The payload bits of a continuation octet. -/
def payload (b : UInt8) : Nat := b.toNat % 64

/-- Decodes the octets from position `index` on. -/
def decodeUtf8From (index : Nat) : Bytes → Except Utf8Fault (List Char)
  | [] => .ok []
  | b :: rest =>
    if b < 0x80 then
      (decodeUtf8From (index + 1) rest).map (Char.ofNat b.toNat :: ·)
    else if 0xC2 ≤ b && b ≤ 0xDF then
      match rest with
      | [] => .error (.incomplete index)
      | b₂ :: rest =>
        if isContinuation b₂ then
          (decodeUtf8From (index + 2) rest).map
            (Char.ofNat (b.toNat % 32 * 64 + payload b₂) :: ·)
        else .error (.invalid 1 index)
    else if 0xE0 ≤ b && b ≤ 0xEF then
      match rest with
      | [] => .error (.incomplete index)
      | b₂ :: rest =>
        if secondFits b b₂ then
          match rest with
          | [] => .error (.incomplete index)
          | b₃ :: rest =>
            if isContinuation b₃ then
              (decodeUtf8From (index + 3) rest).map
                (Char.ofNat ((b.toNat % 16 * 64 + payload b₂) * 64 + payload b₃) :: ·)
            else .error (.invalid 2 index)
        else .error (.invalid 1 index)
    else if 0xF0 ≤ b && b ≤ 0xF4 then
      match rest with
      | [] => .error (.incomplete index)
      | b₂ :: rest =>
        if secondFits b b₂ then
          match rest with
          | [] => .error (.incomplete index)
          | b₃ :: rest =>
            if isContinuation b₃ then
              match rest with
              | [] => .error (.incomplete index)
              | b₄ :: rest =>
                if isContinuation b₄ then
                  (decodeUtf8From (index + 4) rest).map
                    (Char.ofNat (((b.toNat % 8 * 64 + payload b₂) * 64 + payload b₃) * 64
                      + payload b₄) :: ·)
                else .error (.invalid 3 index)
            else .error (.invalid 2 index)
        else .error (.invalid 1 index)
    else .error (.invalid 1 index)

/-- The text that the octets stand for. -/
def decodeUtf8 (bytes : Bytes) : Except Utf8Fault (List Char) := decodeUtf8From 0 bytes

/-- The text before the octet at an index. -/
def decodeBefore (index : Nat) (bytes : Bytes) : List Char :=
  (decodeUtf8 (bytes.take index)).toOption.getD []

/-- Decodes octets with a replacement character for every bad sequence. The first argument
    bounds the number of bad sequences. -/
def decodeLossyWithin : (faults : Nat) → Bytes → List Char
  | 0, _ => []
  | faults + 1, bytes =>
    match decodeUtf8 bytes with
    | .ok text => text
    | .error (.incomplete index) => decodeBefore index bytes ++ ['\uFFFD']
    | .error (.invalid length index) =>
      decodeBefore index bytes ++ '\uFFFD' :: decodeLossyWithin faults (bytes.drop (index + length))

/-- The text that the octets stand for, with a replacement character for every bad sequence. -/
def decodeLossy (bytes : Bytes) : List Char := decodeLossyWithin (bytes.length + 1) bytes

end Text

end Nomenclator
