import Mathlib.Data.Set.Function
import Nomenclator.Naming.Cache
import Nomenclator.Proofs.Naming.Catalog

/-! # The cache — what one call does

    A look-up finds what is kept, or runs its resolver and keeps what it gives, or
    fails and changes nothing; an invalidation drops everything (`Step`).  Whatever
    the call:

    * **Order** — every key and every serial number stands in one entry, all of the
      current generation (`Orderly`);
    * **Memory** — what is kept stays, but for an invalidation, and what comes to it
      is what the call has just given (`Step.kept`, `Step.kept_cases`);
    * **Serial numbers** — a number that was given out never comes back in another
      entry, and not at all once its table was dropped (`Stamped`);
    * **Origin** — where only catalogs are read, every table that is kept is the
      table of a catalog (`Genuine`), and where fingerprints tell documents apart,
      resolving is then reading off (`resolve_eq_ofCatalog`). -/

namespace Nomenclator.Naming

/-- What a caller asks for: a catalog, by its fingerprint, and a direction. -/
@[ext] structure Query where
  catalog : String
  direction : Direction
  deriving DecidableEq

/-- What is run where no table is kept. -/
abbrev Resolver := Unit → Except Error RenameTable × Log

namespace Cache

/-- The resolver that reads a table off a catalog. -/
def reading (catalog : Catalog) (direction : Direction) : Resolver := fun _ =>
  let (result, log) := readOff catalog direction
  (result, loadingRecord direction :: log)

theorem resolve_eq (cache : Cache) (catalog : Catalog) (direction : Direction) :
    cache.resolve catalog direction
      = cache.getOrInsert catalog.fingerprint direction (reading catalog direction) := rfl

theorem reading_fst (catalog : Catalog) (direction : Direction) :
    (reading catalog direction ()).1 = RenameTable.ofCatalog catalog direction := by
  show (readOff catalog direction).1 = _
  rw [readOff]
  cases RenameTable.ofCatalog catalog direction <;> rfl

/-- A call on a cache. -/
inductive Call where
  | resolve (catalog : Catalog) (direction : Direction)
  | getOrInsert (catalog : String) (direction : Direction) (resolver : Resolver)
  | invalidate

namespace Call

/-- What the call asks for. -/
def query? : Call → Option Query
  | .resolve catalog direction => some ⟨catalog.fingerprint, direction⟩
  | .getOrInsert catalog direction _ => some ⟨catalog, direction⟩
  | .invalidate => none

def isInvalidate : Call → Bool
  | .invalidate => true
  | _ => false

/-- Makes the call: its answer, if it asks for something, and the cache afterwards. -/
def perform (cache : Cache) : Call → Option (Except Error Shared) × Cache
  | .resolve catalog direction =>
    let (result, cache, _) := cache.resolve catalog direction
    (some result, cache)
  | .getOrInsert catalog direction resolver =>
    let (result, cache, _) := cache.getOrInsert catalog direction resolver
    (some result, cache)
  | .invalidate => (none, cache.invalidate.1)

/-- The table that the call's resolver gives. -/
def Gives (table : RenameTable) : Call → Prop
  | .resolve catalog direction => RenameTable.ofCatalog catalog direction = .ok table
  | .getOrInsert _ _ resolver => (resolver ()).1 = .ok table
  | .invalidate => False

end Call

-- ── Steps ────────────────────────────────────────────────────────────────────

/-- The table kept for a query in the current generation. -/
def kept? (cache : Cache) (query : Query) : Option Shared :=
  cache.find? (cache.keyFor query.catalog query.direction)

/-- The cache in which a table is stored under a key, unless there is one already. -/
def store (cache : Cache) (key : CacheKey) (table : RenameTable) : Cache :=
  (cache.insertOrGet key table).2

/-- The cache in which a table is stored for a query. -/
def keep (cache : Cache) (query : Query) (table : RenameTable) : Cache :=
  cache.store (cache.keyFor query.catalog query.direction) table

/-- A look-up is answered without its resolver: whatever this is, the answer is the kept table,
    and nothing changes or is reported. -/
def SparesResolver (cache : Cache) (query : Query) (shared : Shared) : Prop :=
  ∀ resolver, cache.getOrInsert query.catalog query.direction resolver = (.ok shared, cache, [])

/-- A look-up runs its resolver: whatever this is, the answer and the log are what it gives. -/
def RunsResolver (cache : Cache) (query : Query) : Prop :=
  ∀ resolver : Resolver,
    ((cache.getOrInsert query.catalog query.direction resolver).1.map Shared.table,
      (cache.getOrInsert query.catalog query.direction resolver).2.2) = resolver ()

section Steps

variable {cache cache' : Cache} {call : Call} {query : Query} {shared : Shared}
  {result : Option (Except Error Shared)}

theorem insertOrGet_of_some {key : CacheKey} (h : cache.find? key = some shared)
    (table : RenameTable) : cache.insertOrGet key table = (shared, cache) := by
  rw [insertOrGet, h]

theorem insertOrGet_of_none {key : CacheKey} (h : cache.find? key = none) (table : RenameTable) :
    cache.insertOrGet key table = ({ serial := cache.issued, table }, cache.store key table) := by
  rw [store, insertOrGet, h]

/-- A new table is stored in the last entry, under the next serial number. -/
theorem store_of_none {key : CacheKey} (h : cache.find? key = none) (table : RenameTable) :
    cache.store key table
      = { cache with
          entries := cache.entries ++ [(key, { serial := cache.issued, table })]
          issued := cache.issued + 1 } := by
  rw [store, insertOrGet, h]

theorem sparesResolver (h : cache.kept? query = some shared) :
    cache.SparesResolver query shared := by
  intro resolver
  rw [kept?] at h
  rw [getOrInsert]
  dsimp only
  rw [h]

theorem getOrInsert_of_not_kept (h : cache.kept? query = none) (resolver : Resolver) :
    cache.getOrInsert query.catalog query.direction resolver
      = match (resolver ()).1 with
        | .ok table =>
          (.ok { serial := cache.issued, table }, cache.keep query table, (resolver ()).2)
        | .error e => (.error e, cache, (resolver ()).2) := by
  rw [kept?] at h
  rw [getOrInsert]
  dsimp only
  rw [h]
  rcases resolver () with ⟨e | table, log⟩
  · rfl
  · dsimp only
    rw [insertOrGet_of_none h]
    rfl

theorem runsResolver (h : cache.kept? query = none) : cache.RunsResolver query := by
  intro resolver
  rw [getOrInsert_of_not_kept h]
  rcases resolver () with ⟨e | table, log⟩ <;> rfl

/-- What a call can do. -/
inductive Step (cache : Cache) : Call → Option (Except Error Shared) → Cache → Prop where
  | hit {call : Call} {query : Query} {shared : Shared} (hquery : call.query? = some query)
      (hkept : cache.kept? query = some shared) : Step cache call (some (.ok shared)) cache
  | failed {call : Call} {query : Query} {e : Error} (hquery : call.query? = some query)
      (hkept : cache.kept? query = none) : Step cache call (some (.error e)) cache
  | stored {call : Call} {query : Query} {table : RenameTable}
      (hquery : call.query? = some query) (hkept : cache.kept? query = none)
      (hgives : call.Gives table) :
      Step cache call (some (.ok { serial := cache.issued, table })) (cache.keep query table)
  | invalidated : Step cache .invalidate none cache.invalidate.1

/-- A look-up is a step, if what its resolver gives is what the call gives. -/
theorem step_getOrInsert (hquery : call.query? = some query) {resolver : Resolver}
    (hgives : ∀ table, (resolver ()).1 = .ok table → call.Gives table) :
    Step cache call (some (cache.getOrInsert query.catalog query.direction resolver).1)
      (cache.getOrInsert query.catalog query.direction resolver).2.1 := by
  cases hkept : cache.kept? query with
  | some shared =>
      rw [sparesResolver hkept]
      exact .hit hquery hkept
  | none =>
      rw [getOrInsert_of_not_kept hkept]
      cases hresult : (resolver ()).1 with
      | ok table => exact .stored hquery hkept (hgives table hresult)
      | error e => exact .failed hquery hkept

/-- **Every call is a step.** -/
theorem step_perform (cache : Cache) (call : Call) :
    Step cache call (call.perform cache).1 (call.perform cache).2 := by
  cases call with
  | getOrInsert catalog direction resolver =>
      have hquery : (Call.getOrInsert catalog direction resolver).query?
          = some ⟨catalog, direction⟩ := rfl
      exact step_getOrInsert hquery fun _ h => h
  | resolve catalog direction =>
      have hquery : (Call.resolve catalog direction).query?
          = some ⟨catalog.fingerprint, direction⟩ := rfl
      have hgives : ∀ table, (reading catalog direction ()).1 = .ok table →
          (Call.resolve catalog direction).Gives table :=
        fun _ h => (reading_fst catalog direction).symm.trans h
      exact step_getOrInsert hquery hgives
  | invalidate => exact .invalidated

end Steps

-- ── Order ────────────────────────────────────────────────────────────────────

/-- Every key and every serial number stands in one entry, and all entries are of the current
    generation. -/
structure Orderly (cache : Cache) : Prop where
  keys : (cache.entries.map Prod.fst).Nodup
  serials : (cache.entries.map fun e => e.2.serial).Nodup
  issued : ∀ e ∈ cache.entries, e.2.serial < cache.issued
  current : ∀ e ∈ cache.entries, e.1.generation = cache.generation

section Order

variable {cache cache' : Cache} {call : Call} {query : Query} {shared : Shared}
  {result : Option (Except Error Shared)}

theorem find?_eq_none_iff {key : CacheKey} :
    cache.find? key = none ↔ key ∉ cache.entries.map Prod.fst := by
  rw [find?, Option.map_eq_none_iff, List.find?_eq_none, List.mem_map]
  constructor
  · rintro h ⟨e, he, rfl⟩
    exact h e he (beq_self_eq_true e.1)
  · intro h e he heq
    exact h ⟨e, he, eq_of_beq heq⟩

theorem mem_of_find? {key : CacheKey} (h : cache.find? key = some shared) :
    (key, shared) ∈ cache.entries := by
  obtain ⟨e, he, rfl⟩ := Option.map_eq_some_iff.1 h
  have hbeq := List.find?_some he
  obtain rfl : e.1 = key := eq_of_beq hbeq
  exact List.mem_of_find?_eq_some he

theorem keyFor_inj {other : Query} :
    cache.keyFor query.catalog query.direction = cache.keyFor other.catalog other.direction
      ↔ query = other := by
  obtain ⟨catalog, direction⟩ := query
  obtain ⟨catalog', direction'⟩ := other
  simp [keyFor]

theorem Step.orderly (h : cache.Orderly) (hstep : Step cache call result cache') :
    cache'.Orderly := by
  cases hstep with
  | hit | failed => exact h
  | invalidated => exact ⟨.nil, .nil, fun _ he => (nomatch he), fun _ he => (nomatch he)⟩
  | @stored call query table hquery hkept hgives =>
      have hnew := find?_eq_none_iff.1 hkept
      have hserial : cache.issued ∉ cache.entries.map fun e => e.2.serial := by
        intro hmem
        obtain ⟨e, he, heq⟩ := List.mem_map.1 hmem
        exact Nat.lt_irrefl _ (heq ▸ h.issued e he)
      rw [keep, store_of_none hkept]
      refine ⟨?_, ?_, fun e he => ?_, fun e he => ?_⟩
      · rw [List.map_append, List.map_singleton, ← List.concat_eq_append]
        exact h.keys.concat hnew
      · rw [List.map_append, List.map_singleton, ← List.concat_eq_append]
        exact h.serials.concat hserial
      · rcases List.mem_append.1 he with he | he
        · exact Nat.lt_succ_of_lt (h.issued e he)
        · rw [List.mem_singleton.1 he]
          exact Nat.lt_succ_self _
      · rcases List.mem_append.1 he with he | he
        · exact h.current e he
        · rw [List.mem_singleton.1 he]
          rfl

theorem isInvalidate_of_query (h : call.query? = some query) : call.isInvalidate = false := by
  cases call with
  | invalidate => exact nomatch h
  | resolve | getOrInsert => rfl

/-- A call counts the generation up if it is an invalidation. -/
theorem Step.generation (hstep : Step cache call result cache') :
    cache'.generation
      = if call.isInvalidate then (cache.generation + 1) % counterSize else cache.generation := by
  cases hstep with
  | hit hquery | failed hquery =>
      rw [isInvalidate_of_query hquery]
      rfl
  | stored hquery hkept =>
      rw [isInvalidate_of_query hquery, keep, store_of_none hkept]
      rfl
  | invalidated => rfl

/-- The next value of the counter is a greater one, unless it starts over. -/
theorem lt_mod_counterSize_iff {n : Nat} : n < (n + 1) % counterSize ↔ n + 1 < counterSize := by
  constructor
  · intro h
    have hmod : (n + 1) % counterSize < counterSize := Nat.mod_lt _ (by decide)
    have hle : (n + 1) % counterSize ≤ n + 1 := Nat.mod_le ..
    by_contra hover
    have hlast : n + 1 = counterSize := by omega
    rw [hlast, Nat.mod_self] at h
    exact Nat.not_lt_zero n h
  · intro h
    rw [Nat.mod_eq_of_lt h]
    exact Nat.lt_succ_self n

-- ── Memory ───────────────────────────────────────────────────────────────────

theorem find?_store (key other : CacheKey) (table : RenameTable) :
    (cache.store key table).find? other
      = (cache.find? other).or
          (if other = key then some { serial := cache.issued, table } else none) := by
  cases hkept : cache.find? key with
  | some shared =>
      have hsame : cache.store key table = cache := by rw [store, insertOrGet_of_some hkept]
      rw [hsame]
      by_cases heq : other = key
      · rw [heq, hkept, Option.some_or]
      · rw [if_neg heq, Option.or_none]
  | none =>
      rw [store_of_none hkept]
      show ((cache.entries ++ [_]).find? _).map Prod.snd = ((cache.entries.find? _).map _).or _
      rw [List.find?_append, Option.map_or]
      refine congrArg (Option.or _) ?_
      by_cases heq : other = key
      · rw [if_pos heq, heq, List.find?_singleton, if_pos]
        · rfl
        · exact beq_self_eq_true _
      · rw [if_neg heq, List.find?_singleton, if_neg]
        · rfl
        · intro hkey
          exact heq (eq_of_beq hkey).symm

theorem generation_store (key : CacheKey) (table : RenameTable) :
    (cache.store key table).generation = cache.generation := by
  cases hkept : cache.find? key with
  | some shared => rw [store, insertOrGet_of_some hkept]
  | none => rw [store_of_none hkept]

theorem kept?_keep (other : Query) (table : RenameTable) :
    (cache.keep query table).kept? other
      = (cache.kept? other).or
          (if other = query then some { serial := cache.issued, table } else none) := by
  have hkey : (cache.keep query table).keyFor other.catalog other.direction
      = cache.keyFor other.catalog other.direction := by
    rw [keep, keyFor, generation_store, keyFor]
  rw [kept?, hkey, keep, find?_store]
  simp only [keyFor_inj]
  rfl

/-- What is kept stays, but for an invalidation. -/
theorem Step.kept (hstep : Step cache call result cache') (hcall : call ≠ .invalidate)
    (hkept : cache.kept? query = some shared) : cache'.kept? query = some shared := by
  cases hstep with
  | hit | failed => exact hkept
  | stored => rw [kept?_keep, hkept, Option.some_or]
  | invalidated => exact absurd rfl hcall

/-- What is not kept, and not asked for, is not kept afterwards. -/
theorem Step.not_kept (hstep : Step cache call result cache') (hcall : call.query? ≠ some query)
    (hkept : cache.kept? query = none) : cache'.kept? query = none := by
  cases hstep with
  | hit | failed => exact hkept
  | stored hquery =>
      rw [kept?_keep, hkept, Option.none_or, if_neg]
      rintro rfl
      exact hcall hquery
  | invalidated => rfl

/-- What a call gives is kept afterwards. -/
theorem Step.kept_of_ok (hstep : Step cache call (some (.ok shared)) cache') :
    ∃ query, call.query? = some query ∧ cache'.kept? query = some shared := by
  cases hstep with
  | hit hquery hkept => exact ⟨_, hquery, hkept⟩
  | stored hquery hkept =>
      refine ⟨_, hquery, ?_⟩
      rw [kept?_keep, hkept, Option.none_or, if_pos rfl]

/-- What is kept is given to those who ask for it. -/
theorem Step.ok_of_kept (hstep : Step cache call result cache')
    (hquery : call.query? = some query) (hkept : cache.kept? query = some shared) :
    result = some (.ok shared) := by
  cases hstep with
  | hit hquery' hkept' =>
      obtain rfl := Option.some.inj (hquery.symm.trans hquery')
      obtain rfl := Option.some.inj (hkept.symm.trans hkept')
      rfl
  | failed hquery' hkept' | stored hquery' hkept' =>
      obtain rfl := Option.some.inj (hquery.symm.trans hquery')
      exact nomatch hkept.symm.trans hkept'
  | invalidated => exact nomatch hquery

/-- A failed call has found nothing, and changes nothing. -/
theorem Step.of_error {e : Error} (hstep : Step cache call (some (.error e)) cache') :
    cache' = cache ∧ ∃ query, call.query? = some query ∧ cache.kept? query = none := by
  cases hstep with
  | failed hquery hkept => exact ⟨rfl, _, hquery, hkept⟩

/-- What is kept after a call was kept before, or has just been given. -/
theorem Step.kept_cases (hstep : Step cache call result cache')
    (hkept : (cache'.kept? query).isSome) :
    (call ≠ .invalidate ∧ (cache.kept? query).isSome)
      ∨ call.query? = some query ∧ ∃ shared, result = some (.ok shared) := by
  cases hstep with
  | hit hquery | failed hquery =>
      refine .inl ⟨?_, hkept⟩
      rintro rfl
      exact nomatch hquery
  | @stored _ query' table hquery _ _ =>
      by_cases heq : query = query'
      · exact .inr ⟨heq ▸ hquery, _, rfl⟩
      · refine .inl ⟨?_, ?_⟩
        · rintro rfl
          exact nomatch hquery
        · rwa [kept?_keep, if_neg heq, Option.or_none] at hkept
  | invalidated => exact nomatch hkept

end Order

/-- The queries whose tables are kept, in the order in which they were given. -/
def queries (cache : Cache) : List Query :=
  cache.entries.map fun e => ⟨e.1.catalog, e.1.direction⟩

theorem Orderly.queries_nodup {cache : Cache} (h : cache.Orderly) : cache.queries.Nodup := by
  have hkeys : cache.queries.map (fun q => cache.keyFor q.catalog q.direction)
      = cache.entries.map Prod.fst := by
    rw [queries, List.map_map]
    refine List.map_congr_left fun e he => ?_
    show CacheKey.mk e.1.catalog e.1.direction cache.generation = e.1
    rw [← h.current e he]
  exact List.Nodup.of_map _ (hkeys ▸ h.keys)

theorem Orderly.mem_queries_iff {cache : Cache} (h : cache.Orderly) (query : Query) :
    query ∈ cache.queries ↔ (cache.kept? query).isSome := by
  rw [← Option.not_isNone, Bool.not_eq_true', ← Bool.not_eq_true, Option.isNone_iff_eq_none, kept?,
    find?_eq_none_iff, not_not, queries, List.mem_map, List.mem_map]
  constructor
  · rintro ⟨e, he, rfl⟩
    refine ⟨e, he, ?_⟩
    rw [keyFor, ← h.current e he]
  · rintro ⟨e, he, heq⟩
    exact ⟨e, he, by rw [heq]; rfl⟩

-- ── Serial numbers ───────────────────────────────────────────────────────────

/-- A serial number was given out, and only these entries can have it. -/
structure Stamped (serial : Nat) (These : CacheKey × Shared → Prop) (cache : Cache) : Prop where
  issued : serial < cache.issued
  only : ∀ e ∈ cache.entries, e.2.serial = serial → These e

section Serials

variable {cache cache' : Cache} {serial : Nat} {These : CacheKey × Shared → Prop} {call : Call}
  {result : Option (Except Error Shared)}

theorem Orderly.stamped (h : cache.Orderly) {e : CacheKey × Shared} (hmem : e ∈ cache.entries) :
    Stamped e.2.serial (· = e) cache :=
  ⟨h.issued _ hmem, fun _ he heq => List.inj_on_of_nodup_map h.serials he hmem heq⟩

/-- After an invalidation no entry has it any more. -/
theorem Stamped.invalidate (h : Stamped serial These cache) :
    Stamped serial (fun _ => False) cache.invalidate.1 :=
  ⟨h.issued, fun _ he => nomatch he⟩

/-- A serial number is not given out again. -/
theorem Step.stamped (hstep : Step cache call result cache') (h : Stamped serial These cache) :
    Stamped serial These cache' := by
  cases hstep with
  | hit | failed => exact h
  | invalidated => exact ⟨h.issued, fun _ he => nomatch he⟩
  | stored _ hkept =>
      rw [keep, store_of_none hkept]
      refine ⟨Nat.lt_succ_of_lt h.issued, fun e he heq => ?_⟩
      rcases List.mem_append.1 he with he | he
      · exact h.only e he heq
      · rw [List.mem_singleton.1 he] at heq
        exact absurd heq (Nat.ne_of_gt h.issued)

end Serials

-- ── Origin ───────────────────────────────────────────────────────────────────

/-- A call that reads a table off one of the documents, or invalidates. -/
def Call.ReadsOff (documents : Set String) : Call → Prop
  | .resolve catalog _ => ∃ text ∈ documents, Catalog.load text = .ok catalog
  | .getOrInsert _ _ _ => False
  | .invalidate => True

/-- Everything that is kept was read off one of the documents. -/
def Genuine (documents : Set String) (cache : Cache) : Prop :=
  ∀ e ∈ cache.entries, ∃ text ∈ documents, ∃ catalog, Catalog.load text = .ok catalog
    ∧ catalog.fingerprint = e.1.catalog
    ∧ RenameTable.ofCatalog catalog e.1.direction = .ok e.2.table

section Origin

variable {documents : Set String} {cache cache' : Cache} {call : Call}
  {result : Option (Except Error Shared)}

theorem Step.genuine (hstep : Step cache call result cache') (hcall : call.ReadsOff documents)
    (h : cache.Genuine documents) : cache'.Genuine documents := by
  cases hstep with
  | hit | failed => exact h
  | invalidated => exact fun _ he => nomatch he
  | @stored call query table hquery hkept hgives =>
      rw [keep, store_of_none hkept]
      intro e he
      rcases List.mem_append.1 he with he | he
      · exact h e he
      · rw [List.mem_singleton.1 he]
        cases call with
        | resolve catalog direction =>
            obtain ⟨text, htext, hload⟩ := hcall
            obtain rfl := Option.some.inj hquery
            exact ⟨text, htext, catalog, hload, rfl, hgives⟩
        | getOrInsert => exact hcall.elim
        | invalidate => exact nomatch hquery

/-- **A cache of genuine tables cannot be seen**: resolving gives what reading off gives. -/
theorem resolve_eq_ofCatalog (hfree : Set.InjOn Digest.fingerprintOf documents)
    (h : cache.Genuine documents) {text : String} (htext : text ∈ documents) {catalog : Catalog}
    (hload : Catalog.load text = .ok catalog) (direction : Direction) :
    (cache.resolve catalog direction).1.map Shared.table
      = RenameTable.ofCatalog catalog direction := by
  let query : Query := ⟨catalog.fingerprint, direction⟩
  cases hkept : cache.kept? query with
  | none =>
      have hruns := runsResolver hkept (reading catalog direction)
      exact (congrArg Prod.fst hruns).trans (reading_fst catalog direction)
  | some shared =>
      rw [resolve_eq, sparesResolver hkept]
      obtain ⟨text', htext', catalog', hload', hprint, htable⟩ := h _ (mem_of_find? hkept)
      -- the fingerprints agree, so the documents do, and so do the catalogs
      obtain ⟨-, -, -, -, -, hdigest⟩ := Catalog.load_eq_ok_iff.1 hload
      obtain ⟨-, -, -, -, -, hdigest'⟩ := Catalog.load_eq_ok_iff.1 hload'
      obtain rfl := hfree htext' htext (hdigest'.symm.trans (hprint.trans hdigest))
      obtain rfl := Except.ok.inj (hload'.symm.trans hload)
      exact htable.symm

end Origin

end Cache

end Nomenclator.Naming
