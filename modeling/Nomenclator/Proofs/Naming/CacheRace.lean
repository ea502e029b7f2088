import Mathlib.Logic.Function.Basic
import Mathlib.Logic.Relation
import Nomenclator.Proofs.Naming.Cache

/-! # Races on the cache — calls that overlap

    Callers share one cache and are stopped by its lock only while they look up,
    store or clear.  A look-up reads the generation, looks up, runs its resolver and
    stores what this gave; an invalidation counts the generation up and clears.  A
    schedule says who takes the next of these steps (`Race.run`), and a call that
    nobody interrupts does what the sequential operation does (`Call.steps_alone`).

    Clearing alone would not do: a slow resolver stores after the invalidation that
    it overlapped, and a generation is counted before its tables are gone.  What
    holds is that a call stores and returns under the one key it has read
    (`Accounts`), that a key carries the number of invalidations counted before it
    was read (`Reaches.generation_of_read`), and that a table never leaves the key
    under which it was stored (`Ledger.storer_unique`). -/

namespace Nomenclator.Naming.Cache

/-- Counts the generation up: the first half of an invalidation. -/
def advance (cache : Cache) : Cache :=
  { cache with generation := (cache.generation + 1) % counterSize }

/-- Drops all tables: the second half of an invalidation. -/
def clear (cache : Cache) : Cache := { cache with entries := [] }

/-- What the call runs where no table is kept. -/
def Call.resolver? : Call → Option Resolver
  | .resolve catalog direction => some (reading catalog direction)
  | .getOrInsert _ _ resolver => some resolver
  | .invalidate => none

/-- How far a call has come: what it still holds in its hands, or what it has answered. -/
inductive Progress where
  | ready
  | keyed (key : CacheKey)
  | missed (key : CacheKey)
  | resolved (key : CacheKey) (table : RenameTable)
  | advanced
  | ended (answer : Option (Except Error Shared))

/-- What a call does in one step. -/
inductive Deed where
  | read (key : CacheKey)
  | hit (key : CacheKey) (shared : Shared)
  | missed (key : CacheKey)
  | resolved (table : RenameTable)
  | failed (e : Error)
  | stored (key : CacheKey) (shared : Shared)
  | found (key : CacheKey) (shared : Shared)
  | advanced
  | cleared
  deriving DecidableEq

namespace Deed

/-- The key that was read. -/
def read? : Deed → Option CacheKey
  | read key => some key
  | _ => none

/-- What the last step of a look-up gives, and under which key. -/
def gives? : Deed → Option (CacheKey × Shared)
  | hit key shared | stored key shared | found key shared => some (key, shared)
  | _ => none

/-- The key of the last step of a look-up under the lock. -/
def lastKey? (deed : Deed) : Option CacheKey := deed.gives?.map Prod.fst

end Deed

/-- The next step of a call: what it does, how far the call is then, and the cache
    afterwards. -/
def Call.next (call : Call) (cache : Cache) : Progress → Option (Deed × Progress × Cache)
  | .ready =>
    match call.query? with
    | some query =>
      let key := cache.keyFor query.catalog query.direction
      some (.read key, .keyed key, cache)
    | none => some (.advanced, .advanced, cache.advance)
  | .keyed key =>
    match cache.find? key with
    | some shared => some (.hit key shared, .ended (some (.ok shared)), cache)
    | none => some (.missed key, .missed key, cache)
  | .missed key =>
    match call.resolver? with
    | some resolver =>
      match (resolver ()).1 with
      | .ok table => some (.resolved table, .resolved key table, cache)
      | .error e => some (.failed e, .ended (some (.error e)), cache)
    | none => none
  | .resolved key table =>
    let (shared, after) := cache.insertOrGet key table
    let deed := if (cache.find? key).isSome then .found key shared else .stored key shared
    some (deed, .ended (some (.ok shared)), after)
  | .advanced => some (.cleared, .ended none, cache.clear)
  | .ended _ => none

-- ── One call alone ───────────────────────────────────────────────────────────

section Alone

variable {cache : Cache} {call : Call} {query : Query} {resolver : Resolver}

theorem Call.resolver?_of_query (h : call.query? = some query) :
    ∃ resolver, call.resolver? = some resolver := by
  cases call with
  | resolve | getOrInsert => exact ⟨_, rfl⟩
  | invalidate => exact nomatch h

theorem Call.gives_iff (h : call.resolver? = some resolver) {table : RenameTable} :
    call.Gives table ↔ (resolver ()).1 = .ok table := by
  cases call with
  | resolve catalog direction =>
      obtain rfl := Option.some.inj h
      rw [reading_fst]
      rfl
  | getOrInsert =>
      obtain rfl := Option.some.inj h
      rfl
  | invalidate => exact nomatch h

theorem Call.perform_of_query (hquery : call.query? = some query)
    (hresolver : call.resolver? = some resolver) (cache : Cache) :
    call.perform cache
      = (some (cache.getOrInsert query.catalog query.direction resolver).1,
          (cache.getOrInsert query.catalog query.direction resolver).2.1) := by
  cases call with
  | resolve | getOrInsert =>
      obtain rfl := Option.some.inj hquery
      obtain rfl := Option.some.inj hresolver
      rfl
  | invalidate => exact nomatch hquery

/-- One step of a call when no other call moves. -/
def Call.Steps (call : Call) (s t : Progress × Cache) : Prop :=
  ∃ deed, call.next s.2 s.1 = some (deed, t)

/-- **A call that nobody interrupts** does what the sequential operation does. -/
theorem Call.steps_alone (call : Call) (cache : Cache) :
    Relation.ReflTransGen call.Steps (.ready, cache)
      (.ended (call.perform cache).1, (call.perform cache).2) := by
  cases hquery : call.query? with
  | none =>
      obtain rfl : call = .invalidate := by
        cases call with
        | resolve | getOrInsert => exact nomatch hquery
        | invalidate => rfl
      exact .tail (.single ⟨.advanced, rfl⟩) ⟨.cleared, rfl⟩
  | some query =>
      obtain ⟨resolver, hresolver⟩ := resolver?_of_query hquery
      rw [perform_of_query hquery hresolver]
      let key := cache.keyFor query.catalog query.direction
      have hread : call.Steps (.ready, cache) (.keyed key, cache) := by
        refine ⟨.read key, ?_⟩
        simp only [next, hquery]
        rfl
      refine .head hread ?_
      cases hkept : cache.kept? query with
      | some shared =>
          have hfind : cache.find? key = some shared := hkept
          rw [sparesResolver hkept]
          refine .single ⟨.hit key shared, ?_⟩
          simp only [next, hfind]
      | none =>
          have hfind : cache.find? key = none := hkept
          have hmissed : call.Steps (.keyed key, cache) (.missed key, cache) := by
            refine ⟨.missed key, ?_⟩
            simp only [next, hfind]
          refine .head hmissed ?_
          rw [getOrInsert_of_not_kept hkept]
          cases hresult : (resolver ()).1 with
          | error e =>
              refine .single ⟨.failed e, ?_⟩
              simp only [next, hresolver, hresult]
          | ok table =>
              have hresolved : call.Steps (.missed key, cache) (.resolved key table, cache) := by
                refine ⟨.resolved table, ?_⟩
                simp only [next, hresolver, hresult]
              refine .head hresolved (.single ⟨.stored key { serial := cache.issued, table }, ?_⟩)
              simp only [next, insertOrGet_of_none hfind, hfind]
              rfl

end Alone

-- ── Any number of calls ──────────────────────────────────────────────────────

/-- Calls on one cache: how far each has come, and who has done what so far. -/
structure Race where
  cache : Cache := {}
  progress : Nat → Progress := fun _ => .ready
  trace : List (Nat × Deed) := []

namespace Race

/-- The race after a step of one call. -/
def move (race : Race) (i : Nat) (deed : Deed) (progress : Progress) (cache : Cache) : Race :=
  { cache, progress := Function.update race.progress i progress,
    trace := race.trace ++ [(i, deed)] }

/-- Lets one call take its next step; a call that is over takes none. -/
def step (calls : Nat → Call) (race : Race) (i : Nat) : Race :=
  match (calls i).next race.cache (race.progress i) with
  | some (deed, progress, cache) => race.move i deed progress cache
  | none => race

/-- The race of calls on an empty cache under a schedule, which says who moves next. -/
def run (calls : Nat → Call) (schedule : List Nat) : Race := schedule.foldl (step calls) {}

/-- A call returns a table. -/
def Returns (race : Race) (i : Nat) (shared : Shared) : Prop :=
  race.progress i = .ended (some (.ok shared))

/-- A call has run its resolver for a table and stored it. -/
def Makes (race : Race) (j : Nat) (shared : Shared) : Prop :=
  ∃ key, (j, .stored key shared) ∈ race.trace

/-- What a step can do. -/
inductive Next (calls : Nat → Call) (race : Race) (i : Nat) : Deed → Progress → Cache → Prop where
  | read {query : Query} (hready : race.progress i = .ready)
      (hquery : (calls i).query? = some query) :
      Next calls race i (.read (race.cache.keyFor query.catalog query.direction))
        (.keyed (race.cache.keyFor query.catalog query.direction)) race.cache
  | hit {key : CacheKey} {shared : Shared} (hkeyed : race.progress i = .keyed key)
      (hfind : race.cache.find? key = some shared) :
      Next calls race i (.hit key shared) (.ended (some (.ok shared))) race.cache
  | missed {key : CacheKey} (hkeyed : race.progress i = .keyed key)
      (hfind : race.cache.find? key = none) :
      Next calls race i (.missed key) (.missed key) race.cache
  | resolved {key : CacheKey} {table : RenameTable} (hmissed : race.progress i = .missed key)
      (hgives : (calls i).Gives table) :
      Next calls race i (.resolved table) (.resolved key table) race.cache
  | failed {key : CacheKey} {e : Error} (hmissed : race.progress i = .missed key) :
      Next calls race i (.failed e) (.ended (some (.error e))) race.cache
  | found {key : CacheKey} {table : RenameTable} {shared : Shared}
      (hresolved : race.progress i = .resolved key table)
      (hfind : race.cache.find? key = some shared) :
      Next calls race i (.found key shared) (.ended (some (.ok shared))) race.cache
  | stored {key : CacheKey} {table : RenameTable}
      (hresolved : race.progress i = .resolved key table)
      (hfind : race.cache.find? key = none) :
      Next calls race i (.stored key { serial := race.cache.issued, table })
        (.ended (some (.ok { serial := race.cache.issued, table }))) (race.cache.store key table)
  | advanced (hready : race.progress i = .ready) :
      Next calls race i .advanced .advanced race.cache.advance
  | cleared (hadvanced : race.progress i = .advanced) :
      Next calls race i .cleared (.ended none) race.cache.clear

section Steps

variable {calls : Nat → Call} {race : Race} {i : Nat} {deed : Deed} {progress : Progress}
  {cache : Cache}

theorem next_of_call (h : (calls i).next race.cache (race.progress i)
    = some (deed, progress, cache)) : Next calls race i deed progress cache := by
  cases hprogress : race.progress i with
  | ready =>
      rw [hprogress, Call.next] at h
      cases hquery : (calls i).query? with
      | some query =>
          simp only [hquery, Option.some.injEq, Prod.mk.injEq] at h
          obtain ⟨rfl, rfl, rfl⟩ := h
          exact .read hprogress hquery
      | none =>
          simp only [hquery, Option.some.injEq, Prod.mk.injEq] at h
          obtain ⟨rfl, rfl, rfl⟩ := h
          exact .advanced hprogress
  | keyed key =>
      rw [hprogress, Call.next] at h
      cases hfind : race.cache.find? key with
      | some shared =>
          simp only [hfind, Option.some.injEq, Prod.mk.injEq] at h
          obtain ⟨rfl, rfl, rfl⟩ := h
          exact .hit hprogress hfind
      | none =>
          simp only [hfind, Option.some.injEq, Prod.mk.injEq] at h
          obtain ⟨rfl, rfl, rfl⟩ := h
          exact .missed hprogress hfind
  | missed key =>
      rw [hprogress, Call.next] at h
      cases hresolver : (calls i).resolver? with
      | none => simp only [hresolver, reduceCtorEq] at h
      | some resolver =>
          cases hresult : (resolver ()).1 with
          | ok table =>
              simp only [hresolver, hresult, Option.some.injEq, Prod.mk.injEq] at h
              obtain ⟨rfl, rfl, rfl⟩ := h
              exact .resolved hprogress ((Call.gives_iff hresolver).2 hresult)
          | error e =>
              simp only [hresolver, hresult, Option.some.injEq, Prod.mk.injEq] at h
              obtain ⟨rfl, rfl, rfl⟩ := h
              exact .failed hprogress
  | resolved key table =>
      rw [hprogress, Call.next] at h
      cases hfind : race.cache.find? key with
      | some shared =>
          rw [insertOrGet_of_some hfind, hfind] at h
          obtain ⟨rfl, rfl, rfl⟩ := h
          exact .found hprogress hfind
      | none =>
          rw [insertOrGet_of_none hfind, hfind] at h
          obtain ⟨rfl, rfl, rfl⟩ := h
          exact .stored hprogress hfind
  | advanced =>
      rw [hprogress, Call.next] at h
      obtain ⟨rfl, rfl, rfl⟩ := h
      exact .cleared hprogress
  | ended answer =>
      rw [hprogress, Call.next] at h
      exact nomatch h

end Steps

/-- The races that calls can get into. -/
inductive Reaches (calls : Nat → Call) : Race → Prop where
  | start : Reaches calls {}
  | next {race : Race} {i : Nat} {deed : Deed} {progress : Progress} {cache : Cache}
      (h : Reaches calls race) (hnext : Next calls race i deed progress cache) :
      Reaches calls (race.move i deed progress cache)

theorem reaches_run (calls : Nat → Call) (schedule : List Nat) :
    Reaches calls (run calls schedule) := by
  have hfrom : ∀ race, Reaches calls race → Reaches calls (schedule.foldl (step calls) race) := by
    induction schedule with
    | nil => exact fun _ h => h
    | cons i later ih =>
        intro race h
        refine ih (race.step calls i) ?_
        rw [step]
        split
        · rename_i hcall
          exact h.next (next_of_call hcall)
        · exact h
  exact hfrom {} .start

-- ── What is said of a trace ──────────────────────────────────────────────────

/-- What one call has contributed to a trace. -/
def pick {α : Type} (f : Deed → Option α) (i : Nat) (trace : List (Nat × Deed)) : List α :=
  trace.filterMap fun entry => if entry.1 = i then f entry.2 else none

/-- The number of invalidations counted in a trace. -/
def advances (trace : List (Nat × Deed)) : Nat := trace.countP fun entry => entry.2 = .advanced

/-- The tables stored in a trace, with the storing calls and their keys. -/
def storedIn (trace : List (Nat × Deed)) : List (Nat × CacheKey × Shared) :=
  trace.filterMap fun entry =>
    match entry.2 with
    | .stored key shared => some (entry.1, key, shared)
    | _ => none

section Traces

variable {α : Type} {f : Deed → Option α} {i j : Nat} {deed : Deed} {key : CacheKey}
  {shared : Shared} {trace before after : List (Nat × Deed)}

theorem mem_pick {a : α} : a ∈ pick f i trace ↔ ∃ deed, (i, deed) ∈ trace ∧ f deed = some a := by
  rw [pick, List.mem_filterMap]
  constructor
  · rintro ⟨⟨j, deed⟩, hmem, h⟩
    dsimp only at h
    by_cases hj : j = i
    · rw [if_pos hj] at h
      exact ⟨deed, hj ▸ hmem, h⟩
    · rw [if_neg hj] at h
      exact nomatch h
  · rintro ⟨deed, hmem, h⟩
    exact ⟨(i, deed), hmem, by rw [if_pos rfl, h]⟩

theorem pick_concat_self : pick f i (trace ++ [(i, deed)]) = pick f i trace ++ (f deed).toList := by
  rw [pick, List.filterMap_append]
  refine congrArg (pick f i trace ++ ·) ?_
  rw [List.filterMap_cons, if_pos rfl]
  cases f deed <;> rfl

theorem pick_concat_of_ne (h : i ≠ j) :
    pick f j (trace ++ [(i, deed)]) = pick f j trace := by
  rw [pick, List.filterMap_append]
  refine (congrArg (pick f j trace ++ ·) ?_).trans (List.append_nil _)
  rw [List.filterMap_cons, if_neg h]
  rfl

theorem mem_pick_read : key ∈ pick Deed.read? i trace ↔ (i, .read key) ∈ trace := by
  rw [mem_pick]
  constructor
  · rintro ⟨deed, hmem, h⟩
    cases deed with
    | read => exact Option.some.inj h ▸ hmem
    | hit | missed | resolved | failed | stored | found | advanced | cleared => exact nomatch h
  · intro hmem
    exact ⟨_, hmem, rfl⟩

theorem mem_storedIn : (i, key, shared) ∈ storedIn trace ↔ (i, .stored key shared) ∈ trace := by
  rw [storedIn, List.mem_filterMap]
  constructor
  · rintro ⟨⟨j, deed⟩, hmem, h⟩
    cases deed with
    | stored =>
        obtain ⟨rfl, rfl, rfl⟩ := h
        exact hmem
    | read | hit | missed | resolved | failed | found | advanced | cleared => exact nomatch h
  · intro hmem
    exact ⟨_, hmem, rfl⟩

theorem advances_append (trace later : List (Nat × Deed)) :
    advances (trace ++ later) = advances trace + advances later :=
  List.countP_append

theorem advances_concat_of_ne (h : deed ≠ .advanced) :
    advances (trace ++ [(i, deed)]) = advances trace := by
  rw [advances_append, advances, advances, List.countP_singleton, if_neg (by simpa using h)]
  rfl

/-- An entry of a trace that has grown by one is the new one, or stands in the trace as it was. -/
theorem concat_eq_append_cons {entry new : Nat × Deed}
    (h : trace ++ [new] = before ++ entry :: after) :
    (trace = before ∧ new = entry ∧ after = [])
      ∨ ∃ later, trace = before ++ entry :: later ∧ after = later ++ [new] := by
  rcases List.eq_nil_or_concat after with rfl | ⟨later, last, rfl⟩
  · obtain ⟨htrace, hnew⟩ := List.append_inj' h rfl
    exact .inl ⟨htrace, (List.cons.inj hnew).1, rfl⟩
  · rw [List.concat_eq_append, ← List.cons_append, ← List.append_assoc] at h
    obtain ⟨htrace, hnew⟩ := List.append_inj' h rfl
    obtain ⟨rfl, -⟩ := List.cons.inj hnew
    exact .inr ⟨later, htrace, List.concat_eq_append⟩

end Traces

-- ── The ledger ───────────────────────────────────────────────────────────────

/-- What a trace says of a call that has come this far: which keys it has read, and what it has
    given. -/
def Accounts (call : Call) (reads : List CacheKey) (given : List (CacheKey × Shared)) :
    Progress → Prop
  | .ready | .advanced => reads = [] ∧ given = []
  | .keyed key | .missed key => reads = [key] ∧ given = []
  | .resolved key table => reads = [key] ∧ given = [] ∧ call.Gives table
  | .ended (some (.ok shared)) => ∃ key, reads = [key] ∧ given = [(key, shared)]
  | .ended _ => given = []

/-- What the trace of a race tells of its state. -/
structure Ledger (calls : Nat → Call) (race : Race) : Prop where
  generation : race.cache.generation = advances race.trace % counterSize
  accounts : ∀ i, Accounts (calls i) (pick Deed.read? i race.trace) (pick Deed.gives? i race.trace)
    (race.progress i)
  entries : ∀ e ∈ race.cache.entries, ∃ j, (j, .stored e.1 e.2) ∈ race.trace
  serials : (storedIn race.trace).map (·.2.2.serial) = List.range race.cache.issued

section Ledger

variable {calls : Nat → Call} {race : Race} {i j : Nat} {deed : Deed} {progress : Progress}
  {cache : Cache} {key : CacheKey} {shared : Shared}

theorem ledger_start (calls : Nat → Call) : Ledger calls {} where
  generation := rfl
  accounts _ := ⟨rfl, rfl⟩
  entries _ he := nomatch he
  serials := rfl

theorem Next.generation (hnext : Next calls race i deed progress cache)
    (h : race.cache.generation = advances race.trace % counterSize) :
    cache.generation = advances (race.trace ++ [(i, deed)]) % counterSize := by
  cases hnext with
  | advanced =>
      show (race.cache.generation + 1) % counterSize = _
      rw [h, Nat.mod_add_mod, advances_append]
      rfl
  | stored =>
      rw [advances_concat_of_ne (by simp), generation_store]
      exact h
  | read | hit | missed | resolved | failed | found | cleared =>
      rw [advances_concat_of_ne (by simp)]
      exact h

theorem Next.accounts (hnext : Next calls race i deed progress cache) {reads : List CacheKey}
    {given : List (CacheKey × Shared)}
    (h : Accounts (calls i) reads given (race.progress i)) :
    Accounts (calls i) (reads ++ deed.read?.toList) (given ++ deed.gives?.toList) progress := by
  cases hnext with
  | read hprogress | advanced hprogress | hit hprogress | missed hprogress | failed hprogress
  | cleared hprogress =>
      rw [hprogress] at h
      obtain ⟨rfl, rfl⟩ := h
      simp [Accounts, Deed.read?, Deed.gives?]
  | resolved hmissed hgives =>
      rw [hmissed] at h
      obtain ⟨rfl, rfl⟩ := h
      exact ⟨rfl, rfl, hgives⟩
  | found hresolved | stored hresolved =>
      rw [hresolved] at h
      obtain ⟨rfl, rfl, -⟩ := h
      exact ⟨_, rfl, rfl⟩

theorem Next.entries (hnext : Next calls race i deed progress cache) :
    ∀ e ∈ cache.entries, e ∈ race.cache.entries ∨ deed = .stored e.1 e.2 := by
  cases hnext with
  | read | hit | missed | resolved | failed | found | advanced => exact fun e he => .inl he
  | cleared => exact fun e he => nomatch he
  | stored _ hfind =>
      rw [store_of_none hfind]
      intro e he
      rcases List.mem_append.1 he with he | he
      · exact .inl he
      · rw [List.mem_singleton.1 he]
        exact .inr rfl

theorem Next.serials (hnext : Next calls race i deed progress cache)
    (h : (storedIn race.trace).map (·.2.2.serial) = List.range race.cache.issued) :
    (storedIn (race.trace ++ [(i, deed)])).map (·.2.2.serial) = List.range cache.issued := by
  rw [storedIn, List.filterMap_append, List.map_append]
  refine (congrArg (· ++ _) h).trans ?_
  cases hnext with
  | stored _ hfind =>
      rw [store_of_none hfind]
      exact List.range_succ.symm
  | read | hit | missed | resolved | failed | found | advanced | cleared =>
      exact List.append_nil _

/-- **Every step keeps the ledger.** -/
theorem Ledger.next (h : Ledger calls race) (hnext : Next calls race i deed progress cache) :
    Ledger calls (race.move i deed progress cache) where
  generation := hnext.generation h.generation
  accounts j := by
    show Accounts (calls j) (pick _ j (race.trace ++ [(i, deed)]))
      (pick _ j (race.trace ++ [(i, deed)])) (Function.update race.progress i progress j)
    by_cases hj : i = j
    · subst hj
      rw [Function.update_self, pick_concat_self, pick_concat_self]
      exact hnext.accounts (h.accounts i)
    · rw [Function.update_of_ne (Ne.symm hj), pick_concat_of_ne hj, pick_concat_of_ne hj]
      exact h.accounts j
  entries e he := by
    rcases hnext.entries e he with hold | rfl
    · obtain ⟨j, hj⟩ := h.entries e hold
      exact ⟨j, List.mem_append_left _ hj⟩
    · exact ⟨i, List.mem_append_right _ List.mem_cons_self⟩
  serials := hnext.serials h.serials

theorem Reaches.ledger (h : Reaches calls race) : Ledger calls race := by
  induction h with
  | start => exact ledger_start calls
  | next _ hnext ih => exact ih.next hnext

/-- A table is stored once. -/
theorem Ledger.storer_unique (h : Ledger calls race) {key' : CacheKey}
    (hi : (i, .stored key shared) ∈ race.trace) (hj : (j, .stored key' shared) ∈ race.trace) :
    i = j ∧ key = key' := by
  have hnodup : ((storedIn race.trace).map (·.2.2.serial)).Nodup := h.serials ▸ List.nodup_range
  have heq := List.inj_on_of_nodup_map hnodup (mem_storedIn.2 hi) (mem_storedIn.2 hj) rfl
  exact ⟨congrArg Prod.fst heq, congrArg (·.2.1) heq⟩

/-- What a call gives is what it returns, and it gives it under the one key it has read. -/
theorem Ledger.returns_of_gives (h : Ledger calls race) (hmem : (i, deed) ∈ race.trace)
    (hgives : deed.gives? = some (key, shared)) :
    race.Returns i shared ∧ pick Deed.read? i race.trace = [key] := by
  have hgiven : (key, shared) ∈ pick Deed.gives? i race.trace := mem_pick.2 ⟨deed, hmem, hgives⟩
  have haccounts := h.accounts i
  rw [Returns]
  generalize race.progress i = progress at haccounts ⊢
  match progress, haccounts with
  | .ready, ⟨_, hnone⟩ | .advanced, ⟨_, hnone⟩ | .keyed _, ⟨_, hnone⟩ | .missed _, ⟨_, hnone⟩
  | .resolved _ _, ⟨_, hnone, _⟩ | .ended none, hnone | .ended (some (.error _)), hnone =>
      rw [hnone] at hgiven
      exact nomatch hgiven
  | .ended (some (.ok _)), ⟨_, hreads, hone⟩ =>
      rw [hone] at hgiven
      obtain ⟨rfl, rfl⟩ := List.mem_singleton.1 hgiven
      exact ⟨rfl, hreads⟩

theorem Ledger.key_of_gives (h : Ledger calls race) (hmem : (i, deed) ∈ race.trace)
    (hgives : deed.gives? = some (key, shared)) {key' : CacheKey}
    (hread : (i, .read key') ∈ race.trace) : key' = key := by
  have hreads := (h.returns_of_gives hmem hgives).2
  exact List.mem_singleton.1 (hreads ▸ mem_pick_read.2 hread)

theorem Ledger.gives_of_returns (h : Ledger calls race) (hreturns : race.Returns i shared) :
    ∃ key deed, (i, deed) ∈ race.trace ∧ deed.gives? = some (key, shared) := by
  have haccounts := h.accounts i
  rw [hreturns] at haccounts
  obtain ⟨key, -, hone⟩ := haccounts
  obtain ⟨deed, hmem, hgives⟩ := mem_pick.1 (hone ▸ List.mem_singleton_self (key, shared))
  exact ⟨key, deed, hmem, hgives⟩

end Ledger

-- ── Along a trace ────────────────────────────────────────────────────────────

section Along

variable {calls : Nat → Call} {race : Race} {i j : Nat} {deed : Deed} {key : CacheKey}
  {shared : Shared} {before after : List (Nat × Deed)}

/-- Everything in a trace was done in a race that was reached before. -/
theorem Reaches.cut (h : Reaches calls race) (htrace : race.trace = before ++ (i, deed) :: after) :
    ∃ earlier progress cache, Reaches calls earlier ∧ earlier.trace = before
      ∧ Next calls earlier i deed progress cache := by
  induction h generalizing after with
  | start => exact absurd htrace (by simp)
  | next h hnext ih =>
      rcases concat_eq_append_cons htrace with ⟨hbefore, hentry, -⟩ | ⟨later, hlater, -⟩
      · obtain ⟨rfl, rfl⟩ := hentry
        exact ⟨_, _, _, h, hbefore, hnext⟩
      · exact ih hlater

/-- A key carries the number of invalidations counted before it was read. -/
theorem Reaches.generation_of_read (h : Reaches calls race)
    (htrace : race.trace = before ++ (i, .read key) :: after) :
    key.generation = advances before % counterSize := by
  obtain ⟨earlier, progress, cache, hearlier, rfl, hnext⟩ := h.cut htrace
  cases hnext with
  | read => exact hearlier.ledger.generation

/-- A call gives what it was asked for. -/
theorem Reaches.query_of_gives (h : Reaches calls race) (hmem : (i, deed) ∈ race.trace)
    (hgives : deed.gives? = some (key, shared)) :
    (calls i).query? = some ⟨key.catalog, key.direction⟩ := by
  have hreads := (h.ledger.returns_of_gives hmem hgives).2
  have hread : (i, .read key) ∈ race.trace := by
    rw [← mem_pick_read, hreads]
    exact List.mem_singleton_self key
  obtain ⟨before, after, htrace⟩ := List.append_of_mem hread
  obtain ⟨earlier, progress, cache, -, -, hnext⟩ := h.cut htrace
  cases hnext with
  | read _ hquery => exact hquery

/-- What a call gives was stored, by this or by another call, under the same key. -/
theorem Reaches.storer_of_gives (h : Reaches calls race) (hmem : (i, deed) ∈ race.trace)
    (hgives : deed.gives? = some (key, shared)) :
    ∃ j, (j, .stored key shared) ∈ race.trace := by
  obtain ⟨before, after, htrace⟩ := List.append_of_mem hmem
  obtain ⟨earlier, progress, cache, hearlier, rfl, hnext⟩ := h.cut htrace
  cases hnext with
  | hit _ hfind | found _ hfind =>
      obtain ⟨rfl, rfl⟩ := hgives
      obtain ⟨j, hj⟩ := hearlier.ledger.entries _ (mem_of_find? hfind)
      exact ⟨j, htrace ▸ List.mem_append_left _ hj⟩
  | stored =>
      obtain ⟨rfl, rfl⟩ := hgives
      exact ⟨i, hmem⟩
  | read | missed | resolved | failed | advanced | cleared => exact nomatch hgives

/-- What a call stores, its own resolver gave. -/
theorem Reaches.gives_of_stored (h : Reaches calls race)
    (hmem : (j, .stored key shared) ∈ race.trace) : (calls j).Gives shared.table := by
  obtain ⟨before, after, htrace⟩ := List.append_of_mem hmem
  obtain ⟨earlier, progress, cache, hearlier, rfl, hnext⟩ := h.cut htrace
  cases hnext with
  | stored hresolved =>
      have haccounts := hearlier.ledger.accounts j
      rw [hresolved] at haccounts
      exact haccounts.2.2

/-- What a step gives is kept under its key. -/
theorem Next.find?_of_gives {progress : Progress} {cache : Cache}
    (hnext : Next calls race i deed progress cache) (hgives : deed.gives? = some (key, shared)) :
    cache.find? key = some shared := by
  cases hnext with
  | hit _ hfind | found _ hfind =>
      obtain ⟨rfl, rfl⟩ := hgives
      exact hfind
  | stored _ hfind =>
      obtain ⟨rfl, rfl⟩ := hgives
      rw [find?_store, hfind, Option.none_or, if_pos rfl]
  | read | missed | resolved | failed | advanced | cleared => exact nomatch hgives

/-- What is kept stays until somebody clears. -/
theorem Next.find?_of_kept {progress : Progress} {cache : Cache}
    (hnext : Next calls race i deed progress cache) (hdeed : deed ≠ .cleared)
    (hkept : race.cache.find? key = some shared) : cache.find? key = some shared := by
  cases hnext with
  | read | hit | missed | resolved | failed | found | advanced => exact hkept
  | stored => rw [find?_store, hkept, Option.some_or]
  | cleared => exact absurd rfl hdeed

theorem Reaches.find?_of_gives (h : Reaches calls race)
    (htrace : race.trace = before ++ (i, deed) :: after)
    (hgives : deed.gives? = some (key, shared)) (hafter : ∀ entry ∈ after, entry.2 ≠ .cleared) :
    race.cache.find? key = some shared := by
  induction h generalizing after with
  | start => exact absurd htrace (by simp)
  | next h hnext ih =>
      rcases concat_eq_append_cons htrace with ⟨-, hentry, -⟩ | ⟨later, hlater, rfl⟩
      · obtain ⟨rfl, rfl⟩ := hentry
        exact hnext.find?_of_gives hgives
      · refine hnext.find?_of_kept (hafter _ (List.mem_append_right _ List.mem_cons_self)) ?_
        exact ih hlater fun entry hentry => hafter entry (List.mem_append_left _ hentry)

/-- Under one key, all are given the same table until somebody clears. -/
theorem Reaches.gives_same (h : Reaches calls race) {between : List (Nat × Deed)} {deed' : Deed}
    {shared' : Shared} (htrace : race.trace = before ++ (i, deed) :: between ++ (j, deed') :: after)
    (hbetween : ∀ entry ∈ between, entry.2 ≠ .cleared) (hgives : deed.gives? = some (key, shared))
    (hgives' : deed'.gives? = some (key, shared')) : shared = shared' := by
  obtain ⟨earlier, progress, cache, hearlier, hbefore, hnext⟩ := h.cut htrace
  have hkept : earlier.cache.find? key = some shared :=
    hearlier.find?_of_gives hbefore hgives hbetween
  cases hnext with
  | hit _ hfind | found _ hfind =>
      obtain ⟨rfl, rfl⟩ := hgives'
      exact Option.some.inj (hkept.symm.trans hfind)
  | stored _ hfind =>
      obtain ⟨rfl, rfl⟩ := hgives'
      exact nomatch hkept.symm.trans hfind
  | read | missed | resolved | failed | advanced | cleared => exact nomatch hgives'

/-- Two calls with an invalidation counted between them have read different keys. -/
theorem Reaches.generation_ne (h : Reaches calls race) (hfew : advances race.trace < counterSize)
    {k : Nat} (htrace : race.trace = before ++ (k, .advanced) :: after) {key' : CacheKey}
    (hlate : (i, .read key) ∈ after) (hearly : (j, .read key') ∈ before) :
    key.generation ≠ key'.generation := by
  obtain ⟨middle, rest, rfl⟩ := List.append_of_mem hlate
  obtain ⟨first, second, rfl⟩ := List.append_of_mem hearly
  have hsecond : race.trace = first ++ (j, .read key')
      :: (second ++ (k, .advanced) :: (middle ++ (i, .read key) :: rest)) := by
    rw [htrace, List.append_assoc, List.cons_append]
  have hmiddle : race.trace = (first ++ (j, .read key') :: second ++ (k, .advanced) :: middle)
      ++ (i, .read key) :: rest := by
    rw [htrace, List.append_assoc _ (_ :: middle), List.cons_append]
  -- the counter has not started over, so each key carries the count itself
  have hfirst_lt : advances first < counterSize := by
    rw [hsecond, advances_append] at hfew
    omega
  have hmiddle_lt : advances (first ++ (j, .read key') :: second ++ (k, .advanced) :: middle)
      < counterSize := by
    rw [hmiddle, advances_append] at hfew
    omega
  have hcount : advances first + 1
      ≤ advances (first ++ (j, .read key') :: second ++ (k, .advanced) :: middle) := by
    have hone : advances ((k, .advanced) :: middle) = advances middle + 1 :=
      List.countP_cons_of_pos rfl
    rw [advances_append, advances_append, hone]
    omega
  rw [h.generation_of_read hmiddle, h.generation_of_read hsecond, Nat.mod_eq_of_lt hmiddle_lt,
    Nat.mod_eq_of_lt hfirst_lt]
  omega

end Along

-- ── No stale table ───────────────────────────────────────────────────────────

/-- **No stale table.**  Whatever the calls and however their steps interleave, as long as the
    generation counter does not start over:

    * a returned table was made by one call, with its own resolver and for the same query;
    * a call that reads the generation after an invalidation has counted it up does not return a
      table made by a call that read it before;
    * calls whose last step under the lock is for one key, with no clearing between these steps,
      return the same table. -/
theorem run_never_stale (calls : Nat → Call) (schedule : List Nat)
    (hfew : advances (run calls schedule).trace < counterSize) :
    (∀ i shared, (run calls schedule).Returns i shared →
      ∃ j, (run calls schedule).Makes j shared ∧ (calls j).Gives shared.table
        ∧ (calls j).query? = (calls i).query?
        ∧ ∀ k, (run calls schedule).Makes k shared → k = j)
    ∧ (∀ before k later, (run calls schedule).trace = before ++ (k, .advanced) :: later →
        ∀ i key shared, (i, .read key) ∈ later → (run calls schedule).Returns i shared →
          ∀ j key', (run calls schedule).Makes j shared → (j, .read key') ∉ before)
    ∧ (∀ before i deed between j deed' after,
        (run calls schedule).trace = before ++ (i, deed) :: between ++ (j, deed') :: after →
        (∀ entry ∈ between, entry.2 ≠ .cleared) →
        ∀ key, deed.lastKey? = some key → deed'.lastKey? = some key →
          ∃ shared, (run calls schedule).Returns i shared
            ∧ (run calls schedule).Returns j shared) := by
  have hreaches : Reaches calls (run calls schedule) := reaches_run calls schedule
  have hledger := hreaches.ledger
  generalize run calls schedule = race at hfew hreaches hledger ⊢
  refine ⟨fun i shared hreturns => ?_, ?_, ?_⟩
  · obtain ⟨key, deed, hmem, hgives⟩ := hledger.gives_of_returns hreturns
    obtain ⟨j, hj⟩ := hreaches.storer_of_gives hmem hgives
    refine ⟨j, ⟨key, hj⟩, hreaches.gives_of_stored hj, ?_, ?_⟩
    · rw [hreaches.query_of_gives hmem hgives, hreaches.query_of_gives hj rfl]
    · rintro k ⟨key', hk⟩
      exact (hledger.storer_unique hk hj).1
  · rintro before k later htrace i key shared hlate hreturns j key' ⟨stored, hj⟩ hearly
    obtain ⟨key₀, deed, hmem, hgives⟩ := hledger.gives_of_returns hreturns
    obtain ⟨j₀, hj₀⟩ := hreaches.storer_of_gives hmem hgives
    obtain ⟨-, rfl⟩ := hledger.storer_unique hj hj₀
    -- reader and maker used the key under which the table is kept, but read different ones
    have hread : (i, .read key) ∈ race.trace := by
      rw [htrace]
      exact List.mem_append_right _ (List.mem_cons_of_mem _ hlate)
    have hread' : (j, .read key') ∈ race.trace := by
      rw [htrace]
      exact List.mem_append_left _ hearly
    obtain rfl := hledger.key_of_gives hmem hgives hread
    obtain rfl := hledger.key_of_gives hj rfl hread'
    exact hreaches.generation_ne hfew htrace hlate hearly rfl
  · intro before i deed between j deed' after htrace hbetween key hkey hkey'
    obtain ⟨⟨_, shared⟩, hgives, rfl⟩ := Option.map_eq_some_iff.1 hkey
    obtain ⟨⟨_, shared'⟩, hgives', rfl⟩ := Option.map_eq_some_iff.1 hkey'
    obtain rfl := hreaches.gives_same htrace hbetween hgives hgives'
    refine ⟨shared, (hledger.returns_of_gives ?_ hgives).1, (hledger.returns_of_gives ?_ hgives').1⟩
    · rw [htrace, List.append_assoc]
      exact List.mem_append_right _ List.mem_cons_self
    · rw [htrace]
      exact List.mem_append_right _ List.mem_cons_self

/-- A table without classes. -/
def bare : RenameTable := { direction := ⟨"o", "n"⟩ }

/-- Its key in a generation. -/
def bareKey (generation : Nat) : CacheKey := ⟨"catalog", bare.direction, generation⟩

/-- Look-ups of one table, and an invalidation. -/
def overlapping : Nat → Call
  | 1 => .invalidate
  | _ => .getOrInsert "catalog" bare.direction fun _ => (.ok bare, [])

/-- A slow look-up stores after the invalidation that it overlapped, and two look-ups race for the
    new generation before anything is cleared. -/
theorem run_never_stale_slow_resolver :
    let race := run overlapping [0, 0, 1, 2, 3, 2, 3, 2, 0, 0, 2, 3, 3, 1]
    race.trace = [(0, .read (bareKey 0)), (0, .missed (bareKey 0))] ++ (1, .advanced)
        :: [(2, .read (bareKey 1)), (3, .read (bareKey 1)), (2, .missed (bareKey 1)),
          (3, .missed (bareKey 1)), (2, .resolved bare), (0, .resolved bare),
          (0, .stored (bareKey 0) ⟨0, bare⟩), (2, .stored (bareKey 1) ⟨1, bare⟩),
          (3, .resolved bare), (3, .found (bareKey 1) ⟨1, bare⟩), (1, .cleared)]
      ∧ advances race.trace < counterSize
      ∧ race.Returns 3 ⟨1, bare⟩ ∧ ¬ race.Makes 0 ⟨1, bare⟩
      ∧ ∃ shared, race.Returns 2 shared ∧ race.Returns 3 shared := by
  intro race
  have htrace : race.trace = [(0, .read (bareKey 0)), (0, .missed (bareKey 0))] ++ (1, .advanced)
      :: [(2, .read (bareKey 1)), (3, .read (bareKey 1)), (2, .missed (bareKey 1)),
        (3, .missed (bareKey 1)), (2, .resolved bare), (0, .resolved bare),
        (0, .stored (bareKey 0) ⟨0, bare⟩), (2, .stored (bareKey 1) ⟨1, bare⟩),
        (3, .resolved bare), (3, .found (bareKey 1) ⟨1, bare⟩), (1, .cleared)] := by
    decide +kernel
  have hfew : advances race.trace < counterSize := by
    rw [htrace]
    decide
  have hledger : Ledger overlapping race := (reaches_run ..).ledger
  have hfound : (3, .found (bareKey 1) ⟨1, bare⟩) ∈ race.trace := by
    simp [htrace]
  have hreturns : race.Returns 3 ⟨1, bare⟩ := (hledger.returns_of_gives hfound rfl).1
  obtain ⟨-, hstale, hsame⟩ := run_never_stale overlapping _ hfew
  refine ⟨htrace, hfew, hreturns, fun hmakes => ?_, ?_⟩
  · refine hstale _ _ _ htrace 3 (bareKey 1) _ ?_ hreturns 0 (bareKey 0) hmakes List.mem_cons_self
    exact List.mem_cons_of_mem _ List.mem_cons_self
  · refine hsame (race.trace.take 10) 2 (.stored (bareKey 1) ⟨1, bare⟩) [(3, .resolved bare)]
      3 (.found (bareKey 1) ⟨1, bare⟩) [(1, .cleared)] ?_ ?_ (bareKey 1) rfl rfl
    · rw [htrace]
      rfl
    · simp

end Race

end Nomenclator.Naming.Cache
