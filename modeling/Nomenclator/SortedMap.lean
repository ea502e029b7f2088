/-!
# Sorted maps — association lists in strictly increasing key order

The one container of the library whose order can be seen from outside. The entries are
kept as a list whose keys strictly increase, so two maps with the same look-ups are the
same value, and walking the entries visits the keys in order.

* `insert` replaces the value of a key that is already there (the last write wins);
* `ofList` inserts from left to right;
* `floor?` is the entry with the greatest key at or below a bound.
-/

namespace Nomenclator

universe u v

/-- Every key is smaller than all keys after it. -/
def KeysIncrease {κ : Type u} {α : Type v} [Ord κ] (entries : List (κ × α)) : Prop :=
  entries.Pairwise fun a b => compare a.1 b.1 = .lt

/-- A finite map whose entries are listed in increasing key order. -/
structure SortedMap (κ : Type u) (α : Type v) [Ord κ] where
  toList : List (κ × α)
  increasing : KeysIncrease toList

namespace SortedMap

variable {κ : Type u} {α : Type v} [Ord κ]

/-- Look-up in a list of entries whose keys increase. -/
def lookupIn (key : κ) : List (κ × α) → Option α
  | [] => none
  | (k, value) :: rest =>
    match compare key k with
    | .lt => none
    | .eq => some value
    | .gt => lookupIn key rest

/-- Insertion into a list of entries whose keys increase. -/
def insertIn (key : κ) (value : α) : List (κ × α) → List (κ × α)
  | [] => [(key, value)]
  | (k, old) :: rest =>
    match compare key k with
    | .lt => (key, value) :: (k, old) :: rest
    | .eq => (key, value) :: rest
    | .gt => (k, old) :: insertIn key value rest

theorem mem_insertIn {key : κ} {value : α} {entries : List (κ × α)} {e : κ × α}
    (h : e ∈ insertIn key value entries) : e = (key, value) ∨ e ∈ entries := by
  induction entries with
  | nil => simpa [insertIn] using h
  | cons head rest ih =>
    obtain ⟨k, old⟩ := head
    simp only [insertIn] at h
    split at h
    · simpa using h
    · rcases List.mem_cons.1 h with h | h
      · exact .inl h
      · exact .inr (List.mem_cons_of_mem _ h)
    · rcases List.mem_cons.1 h with h | h
      · exact .inr (h ▸ List.mem_cons_self)
      · exact (ih h).imp_right (List.mem_cons_of_mem _)

/-- Insertion keeps the keys in order. -/
theorem increasing_insertIn [Std.TransOrd κ] [Std.LawfulEqOrd κ] (key : κ) (value : α)
    {entries : List (κ × α)} (h : KeysIncrease entries) :
    KeysIncrease (insertIn key value entries) := by
  induction entries with
  | nil => simp [insertIn, KeysIncrease]
  | cons head rest ih =>
    obtain ⟨k, old⟩ := head
    have hrest : KeysIncrease rest := (List.pairwise_cons.1 h).2
    have hk : ∀ e ∈ rest, compare k e.1 = .lt := (List.pairwise_cons.1 h).1
    simp only [insertIn]
    split
    · next hlt =>
      refine List.pairwise_cons.2 ⟨fun e he => ?_, h⟩
      rcases List.mem_cons.1 he with rfl | he
      · exact hlt
      · exact Std.TransCmp.lt_trans hlt (hk e he)
    · next heq =>
      have : key = k := Std.LawfulEqOrd.eq_of_compare heq
      exact List.pairwise_cons.2 ⟨fun e he => this ▸ hk e he, hrest⟩
    · next hgt =>
      refine List.pairwise_cons.2 ⟨fun e he => ?_, ih hrest⟩
      rcases mem_insertIn he with rfl | he
      · exact Std.OrientedCmp.gt_iff_lt.1 hgt
      · exact hk e he

/-- The map without entries. -/
def empty : SortedMap κ α := ⟨[], List.Pairwise.nil⟩

instance : EmptyCollection (SortedMap κ α) := ⟨empty⟩

instance : Inhabited (SortedMap κ α) := ⟨empty⟩

/-- The value of a key. -/
def get? (m : SortedMap κ α) (key : κ) : Option α := lookupIn key m.toList

/-- Is there an entry for the key? -/
def contains (m : SortedMap κ α) (key : κ) : Bool := (m.get? key).isSome

/-- The map in which `key` has the given value and every other key keeps its own. -/
def insert [Std.TransOrd κ] [Std.LawfulEqOrd κ] (m : SortedMap κ α) (key : κ) (value : α) :
    SortedMap κ α :=
  ⟨insertIn key value m.toList, increasing_insertIn key value m.increasing⟩

/-- The map without an entry for any key that `drop` accepts. -/
def eraseWhere (m : SortedMap κ α) (drop : κ → Bool) : SortedMap κ α :=
  ⟨m.toList.filter fun e => !drop e.1, m.increasing.filter _⟩

/-- The map without an entry for the key. -/
def erase (m : SortedMap κ α) (key : κ) : SortedMap κ α :=
  m.eraseWhere fun k => compare key k == .eq

/-- Inserts the entries of a list from left to right. -/
def insertAll [Std.TransOrd κ] [Std.LawfulEqOrd κ] (m : SortedMap κ α)
    (entries : List (κ × α)) : SortedMap κ α :=
  entries.foldl (fun m e => m.insert e.1 e.2) m

/-- The map of a list of entries; of several with one key the last counts. -/
def ofList [Std.TransOrd κ] [Std.LawfulEqOrd κ] (entries : List (κ × α)) : SortedMap κ α :=
  empty.insertAll entries

/-- The number of entries. -/
def size (m : SortedMap κ α) : Nat := m.toList.length

/-- Are there no entries? -/
def isEmpty (m : SortedMap κ α) : Bool := m.toList.isEmpty

/-- The keys in increasing order. -/
def keys (m : SortedMap κ α) : List κ := m.toList.map Prod.fst

/-- The values in the order of their keys. -/
def values (m : SortedMap κ α) : List α := m.toList.map Prod.snd

/-- The entry with the greatest key at or below the bound. -/
def floor? (m : SortedMap κ α) (bound : κ) : Option (κ × α) :=
  (m.toList.takeWhile fun e => (compare e.1 bound).isLE).getLast?

@[ext] theorem ext {m n : SortedMap κ α} (h : m.toList = n.toList) : m = n := by
  cases m; cases n; cases h; rfl

instance [DecidableEq κ] [DecidableEq α] : DecidableEq (SortedMap κ α) := fun m n =>
  decidable_of_iff (m.toList = n.toList) ⟨ext, fun h => h ▸ rfl⟩

-- ── What the operations do to look-ups ───────────────────────────────────────

@[simp] theorem get?_empty (key : κ) : (empty : SortedMap κ α).get? key = none := rfl

theorem lookupIn_insertIn [Std.TransOrd κ] [Std.LawfulEqOrd κ] [DecidableEq κ] (key other : κ)
    (value : α) (entries : List (κ × α)) :
    lookupIn other (insertIn key value entries) =
      if other = key then some value else lookupIn other entries := by
  induction entries with
  | nil =>
    simp only [insertIn, lookupIn]
    split
    · next h =>
      have : other ≠ key := fun e => by simp [e, Std.ReflOrd.compare_self] at h
      simp [this]
    · next h => simp [Std.LawfulEqOrd.eq_of_compare h]
    · next h =>
      have : other ≠ key := fun e => by simp [e, Std.ReflOrd.compare_self] at h
      simp [this]
  | cons head rest ih =>
    obtain ⟨k, old⟩ := head
    by_cases hok : other = key
    · subst hok
      simp only [insertIn]
      split <;> simp_all [lookupIn, Std.ReflOrd.compare_self]
    · have hne : compare other key ≠ .eq := fun h => hok (Std.LawfulEqOrd.eq_of_compare h)
      simp only [insertIn]
      split
      · next hlt =>
        cases hc : compare other key with
        | lt => simp [lookupIn, hc, hok, Std.TransCmp.lt_trans hc hlt]
        | eq => exact absurd hc hne
        | gt => simp [lookupIn, hc, hok]
      · next heq =>
        have : key = k := Std.LawfulEqOrd.eq_of_compare heq
        subst this
        cases hc : compare other key <;> simp_all [lookupIn]
      · next hgt =>
        simp only [lookupIn, ih, hok, if_false]

theorem get?_insert [Std.TransOrd κ] [Std.LawfulEqOrd κ] [DecidableEq κ] (m : SortedMap κ α)
    (key other : κ) (value : α) :
    (m.insert key value).get? other = if other = key then some value else m.get? other :=
  lookupIn_insertIn key other value m.toList

end SortedMap

end Nomenclator
