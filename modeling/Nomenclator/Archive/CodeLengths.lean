import Nomenclator.Text.Utf8

/-!
# Deflate — lengths of words

A prefix code for symbols that occur so many times each gives shorter words to the more
frequent ones. The lengths are the depths of a tree that is built by joining the two
lightest parts again and again; between a single symbol and a joined part of one weight the
symbol goes first. Depths beyond a limit are cut off there, and the room that is then
missing is won by moving shorter words one step down.
-/

namespace Nomenclator.Archive

/-- A part of the tree: how often its symbols occur, and their depths. -/
structure Part where
  weight : Nat
  depths : List Nat
  deriving DecidableEq, Repr

/-- Two parts as one, a step higher. -/
def Part.join (a b : Part) : Part :=
  { weight := a.weight + b.weight, depths := (a.depths ++ b.depths).map (· + 1) }

/-- The lightest part of two rows, each lightest first: single symbols, and joined parts. -/
def lightest? : (single joined : List Part) → Option (Part × List Part × List Part)
  | [], [] => none
  | a :: single, [] => some (a, single, [])
  | [], b :: joined => some (b, [], joined)
  | a :: single, b :: joined =>
    if b.weight < a.weight then some (b, a :: single, joined) else some (a, single, b :: joined)

/-- The depths of all symbols when the parts have been joined; every round joins two. -/
def joinAll : (fuel : Nat) → (single joined : List Part) → List Nat
  | 0, _, _ => []
  | fuel + 1, single, joined =>
    match lightest? single joined with
    | none => []
    | some (a, single, joined) =>
      match lightest? single joined with
      | none => a.depths
      | some (b, single, joined) => joinAll fuel single (joined ++ [a.join b])

/-- How many words there are of every length from `limit` down to one. A word has at least one
    bit. -/
def wordCounts (depths : List Nat) : (limit : Nat) → List Nat
  | 0 => []
  | limit + 1 =>
    let (here, above) := depths.partition fun d => limit < d ∨ limit = 0
    here.length :: wordCounts above limit

/-- How much room the words take, counted in words of the greatest length; longest first. -/
def roomOf : (each : Nat) → (counts : List Nat) → Nat
  | _, [] => 0
  | each, count :: shorter => count * each + roomOf (2 * each) shorter

/-- Moves the longest of the shorter words a step down, where it makes room for a second one. -/
def lowerOne : (count : Nat) → (shorter : List Nat) → List Nat
  | count, [] => [count]
  | count, next :: shorter =>
    if next = 0 then count :: lowerOne 0 shorter else (count + 2) :: (next - 1) :: shorter

/-- Takes so much room from words of the greatest length. -/
def shrink : (excess : Nat) → (counts : List Nat) → List Nat
  | 0, counts => counts
  | _, [] => []
  | excess + 1, count :: shorter => shrink excess (lowerOne (count - 1) shorter)

/-- The lengths of the words for symbols that occur so often, no longer than a limit; a symbol
    that does not occur has no word. -/
def codeLengths (limit : Nat) (counts : List Nat) : List Nat :=
  let used := (counts.zipIdx.filter (·.1 ≠ 0)).mergeSort fun a b => a.1 ≤ b.1
  let depths := joinAll used.length (used.map fun e => { weight := e.1, depths := [0] }) []
  let words := wordCounts depths limit
  let words := shrink (roomOf 1 words - 1 <<< limit) words
  let lengths := (words.reverse.zipIdx 1).flatMap fun e => List.replicate e.1 e.2
  let given := (used.reverse.map Prod.snd).zip lengths
  (List.range counts.length).map fun symbol => (given.lookup symbol).getD 0

end Nomenclator.Archive
