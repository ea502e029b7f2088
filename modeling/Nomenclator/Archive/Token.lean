import Nomenclator.Text.Utf8
import Std.Data.HashMap

/-!
# Deflate — octets as literals and copies

Before octets are compressed, what has stood before is replaced by copies: a token is an
octet that stands for itself, or a copy of so many octets from a distance before it.

* **Candidates** — the earlier positions whose next three octets have the same hash, nearest
  first. They are tried in rounds of three, and only so many rounds are made; a candidate
  that agrees at the end of the best copy so far ends its round.
* **Delay** — a copy is held back for one octet. When a longer one starts at the next
  position, the octet becomes a literal and the longer copy is held back in its place. Copies
  from `promptLength` on are not held back.
-/

namespace Nomenclator.Archive

/-- A token of compressed data. -/
inductive Token where
  | literal (octet : UInt8)
  | copy (length distance : Nat)
  deriving DecidableEq, Repr

/-- How many octets a token stands for. -/
def Token.width : Token → Nat
  | .literal _ => 1
  | .copy length _ => length

-- ── Candidates ───────────────────────────────────────────────────────────────

/-- The hash of three octets. -/
def tripleHash (a b c : UInt8) : Nat :=
  ((a.toNat <<< 10) ^^^ (b.toNat <<< 5) ^^^ c.toNat) % 0x8000

/-- The candidates of every position that has three octets, when `heads` holds those for every
    hash. Positions are kept in sixteen bits, where zero stands for the end of a chain. -/
def chainsFrom (heads : Std.HashMap Nat (List Nat)) (pos : Nat) : Bytes → List (List Nat)
  | a :: b :: c :: rest =>
    let chain := heads.getD (tripleHash a b c) []
    let head := if pos % 0x10000 = 0 then [] else pos :: chain
    chain :: chainsFrom (heads.insert (tripleHash a b c) head) (pos + 1) (b :: c :: rest)
  | _ => []

/-- Octets with the candidates of every position. -/
structure Chained where
  octets : Array UInt8
  chains : Array (List Nat)

/-- Finds the candidates of every position. -/
def Chained.ofBytes (data : Bytes) : Chained :=
  { octets := data.toArray, chains := (chainsFrom ∅ 0 data).toArray }

-- ── Copies ───────────────────────────────────────────────────────────────────

/-- A stretch that stands at a distance before; the distance is zero when none was found. -/
structure Copy where
  length : Nat
  distance : Nat
  deriving DecidableEq, Repr

/-- The token of a copy. -/
def Copy.token (c : Copy) : Token := .copy c.length c.distance

/-- How far back a copy reaches at most, together with what follows. -/
def window : Nat := 0x8000

/-- The greatest length of a copy. -/
def longestCopy : Nat := 258

/-- The length from which on a copy is taken at once. -/
def promptLength : Nat := 128

/-- How many octets two positions have in common, up to a limit. -/
def agreement (octets : Array UInt8) (p q : Nat) : (limit : Nat) → Nat
  | 0 => 0
  | limit + 1 =>
    if octets.getD p 0 = octets.getD q 0 then agreement octets (p + 1) (q + 1) limit + 1 else 0

/-- Do two positions agree in the last octet of a length and in the one behind it? -/
def endsAlike (octets : Array UInt8) (p q length : Nat) : Bool :=
  octets.getD (p + length - 1) 0 == octets.getD (q + length - 1) 0
    && octets.getD (p + length) 0 == octets.getD (q + length) 0

/-- The longest copy among candidates, and the first of several. `tries` candidates are left in
    this round, and `rounds` rounds after it. -/
def longest (octets : Array UInt8) (pos limit reach : Nat) :
    (chain : List Nat) → (rounds tries : Nat) → (best : Copy) → Copy
  | [], _, _, best => best
  | start :: chain, rounds, tries, best =>
    if (tries = 0 ∧ rounds = 0) ∨ reach < pos - start then best
    else
      let left := if tries = 0 then (rounds - 1, 2) else (rounds, tries - 1)
      if endsAlike octets pos start best.length then
        let length := agreement octets pos start limit
        if length ≤ best.length then longest octets pos limit reach chain left.1 0 best
        else if length = limit then ⟨length, pos - start⟩
        else longest octets pos limit reach chain left.1 0 ⟨length, pos - start⟩
      else longest octets pos limit reach chain left.1 left.2 best

/-- The copy at a position that is longer than a given length. A copy of three octets from far
    away is not worth its distance, and a copy from a position where the window begins anew is
    not taken. -/
def Chained.copyAt (c : Chained) (pos least : Nat) : Copy :=
  let limit := min longestCopy (c.octets.size - pos)
  if limit ≤ least then ⟨least, 0⟩
  else
    let reach := min pos (window - limit)
    let rounds := if least < 32 then 43 else 11
    let found := longest c.octets pos limit reach (c.chains.getD pos []) rounds 0 ⟨least, 0⟩
    let isFar := found.length = 3 ∧ 0x2000 ≤ found.distance
    if isFar ∨ found.distance = pos % window then ⟨0, 0⟩ else found

-- ── Tokens ───────────────────────────────────────────────────────────────────

/-- The tokens from a position on, in the groups in which they are settled. The octet before the
    position may be held back together with the copy that starts there. -/
def Chained.groupsFrom (c : Chained) :
    (fuel pos : Nat) → (held : Option (UInt8 × Copy)) → List (List Token)
  | 0, _, _ => []
  | fuel + 1, pos, held =>
    if c.octets.size ≤ pos then []
    else
      let octet := c.octets.getD pos 0
      match held with
      | none =>
        let found := c.copyAt pos 2
        if found.distance = 0 then [.literal octet] :: c.groupsFrom fuel (pos + 1) none
        else if promptLength ≤ found.length then
          [found.token] :: c.groupsFrom fuel (pos + found.length) none
        else c.groupsFrom fuel (pos + 1) (some (octet, found))
      | some (before, copy) =>
        let found := c.copyAt pos copy.length
        if found.length ≤ copy.length then
          [copy.token] :: c.groupsFrom fuel (pos + copy.length - 1) none
        else if promptLength ≤ found.length then
          [.literal before, found.token] :: c.groupsFrom fuel (pos + found.length) none
        else [.literal before] :: c.groupsFrom fuel (pos + 1) (some (octet, found))

/-- The tokens of octets, in the groups in which they are settled. -/
def tokenGroups (data : Bytes) : List (List Token) :=
  (Chained.ofBytes data).groupsFrom (data.length + 1) 0 none

end Nomenclator.Archive
