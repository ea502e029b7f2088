import Mathlib.Data.Set.Card
import Nomenclator.Proofs.Naming.Cache

/-! # Histories of the cache — what any sequence of calls gives

    A history is a list of calls on one cache that starts empty.  What one call
    keeps (`Step`) is kept by a run (`run_induction`), so after any history the
    cache holds exactly what was given since the last invalidation
    (`isSome_kept_iff`), two answers are one table exactly if they were given under
    one query in one generation (`serial_eq_iff`), and a failure leaves no trace
    (`runsResolver_after_error`). -/

namespace Nomenclator.Naming.Cache

/-- The cache after calls, one after the other. -/
def run (cache : Cache) (calls : List Call) : Cache :=
  calls.foldl (fun cache call => (call.perform cache).2) cache

/-- The cache after a history. -/
def after (calls : List Call) : Cache := run {} calls

/-- What a call answers after a history. -/
def answer (before : List Call) (call : Call) : Option (Except Error Shared) :=
  (call.perform (after before)).1

theorem after_append (before calls : List Call) :
    after (before ++ calls) = run (after before) calls :=
  List.foldl_append ..

theorem after_concat (before : List Call) (call : Call) :
    after (before ++ [call]) = (call.perform (after before)).2 :=
  after_append ..

/-- What every step keeps is kept by a run. -/
theorem run_induction {P : Cache → Prop} {calls : List Call}
    (hstep : ∀ call ∈ calls, ∀ cache, P cache → P (call.perform cache).2) {cache : Cache}
    (h : P cache) : P (run cache calls) := by
  induction calls generalizing cache with
  | nil => exact h
  | cons call later ih =>
      refine ih (fun c hc => hstep c (List.mem_cons_of_mem _ hc)) ?_
      exact hstep call List.mem_cons_self cache h

/-- The answer of a call and the cache afterwards make a step. -/
theorem step_of_answer {before : List Call} {call : Call} {result : Option (Except Error Shared)}
    (h : answer before call = result) :
    Step (after before) call result (after (before ++ [call])) := by
  rw [after_concat, ← h]
  exact step_perform (after before) call

theorem after_between (before between : List Call) (call : Call) :
    after (before ++ call :: between) = run (after (before ++ [call])) between := by
  rw [← after_append, List.append_assoc]
  rfl

theorem orderly_after (calls : List Call) : (after calls).Orderly :=
  run_induction (fun call _ cache h => (step_perform cache call).orderly h)
    ⟨.nil, .nil, fun _ he => (nomatch he), fun _ he => (nomatch he)⟩

/-- The counter of generations counts invalidations. -/
theorem generation_after (calls : List Call) :
    (after calls).generation = calls.countP Call.isInvalidate % counterSize := by
  induction calls using List.reverseRecOn with
  | nil => rfl
  | append_singleton calls call ih =>
      rw [after_concat, (step_perform (after calls) call).generation, ih, List.countP_append,
        List.countP_singleton]
      split
      · exact Nat.mod_add_mod ..
      · rfl

/-- A serial number that was given out is not given out by a run. -/
theorem stamped_run {cache : Cache} {serial : Nat} {These : CacheKey × Shared → Prop}
    (h : Stamped serial These cache) (calls : List Call) : Stamped serial These (run cache calls) :=
  run_induction (fun call _ cache h => (step_perform cache call).stamped h) h

-- ── Memory ───────────────────────────────────────────────────────────────────

/-- A call under the query succeeded, and none has invalidated the cache since. -/
def Answered (calls : List Call) (query : Query) : Prop :=
  ∃ before call later, calls = before ++ call :: later ∧ call.query? = some query
    ∧ (∃ shared, answer before call = some (.ok shared)) ∧ Call.invalidate ∉ later

section Memory

variable {before between : List Call} {call : Call} {query : Query} {shared : Shared}

/-- What was given is kept as long as nobody invalidates. -/
theorem kept_after (hanswer : answer before call = some (.ok shared))
    (hquery : call.query? = some query) (hbetween : Call.invalidate ∉ between) :
    (after (before ++ call :: between)).kept? query = some shared := by
  have hstep := step_of_answer hanswer
  obtain ⟨query', hquery', hkept⟩ := hstep.kept_of_ok
  obtain rfl := Option.some.inj (hquery.symm.trans hquery')
  rw [after_between]
  refine run_induction (P := fun cache => cache.kept? query = some shared)
    (fun c hc cache h => ?_) hkept
  exact (step_perform cache c).kept (fun heq => hbetween (heq ▸ hc)) h

/-- **What is kept** are the answers since the last invalidation. -/
theorem isSome_kept_iff (calls : List Call) (query : Query) :
    ((after calls).kept? query).isSome ↔ Answered calls query := by
  constructor
  · intro hkept
    -- from the last call backwards
    induction calls using List.reverseRecOn with
    | nil => exact nomatch hkept
    | append_singleton calls call ih =>
        rcases (step_of_answer rfl).kept_cases hkept with ⟨hcall, hold⟩ | ⟨hquery, hgiven⟩
        · obtain ⟨before, earlier, later, rfl, hquery, hgiven, hlater⟩ := ih hold
          refine ⟨before, earlier, later ++ [call], by simp, hquery, hgiven, ?_⟩
          rw [List.mem_append, List.mem_singleton]
          rintro (hmem | hmem)
          · exact hlater hmem
          · exact hcall hmem.symm
        · exact ⟨calls, call, [], rfl, hquery, hgiven, List.not_mem_nil⟩
  · rintro ⟨before, call, later, rfl, hquery, ⟨shared, hanswer⟩, hlater⟩
    rw [kept_after hanswer hquery hlater]
    rfl

/-- **The size of the cache** is the number of queries that were answered since the last
    invalidation. -/
theorem size_after (calls : List Call) :
    (after calls).size = {query | Answered calls query}.ncard := by
  have horderly := orderly_after calls
  have hset : {query | Answered calls query} = ((after calls).queries.toFinset : Set Query) := by
    ext query
    show Answered calls query ↔ query ∈ ((after calls).queries.toFinset : Set Query)
    rw [← isSome_kept_iff, ← horderly.mem_queries_iff, Finset.mem_coe, List.mem_toFinset]
  rw [hset, Set.ncard_coe_finset, List.toFinset_card_of_nodup horderly.queries_nodup, queries,
    List.length_map]
  rfl

end Memory

-- ── Answers ──────────────────────────────────────────────────────────────────

section Answers

variable {before between : List Call} {call first second : Call} {query : Query}
  {shared shared' : Shared}

/-- Two answers with one serial number are one table, asked for by one query in one
    generation. -/
theorem same_of_serial_eq (hfirst : answer before first = some (.ok shared))
    (hsecond : answer (before ++ first :: between) second = some (.ok shared'))
    (hserial : shared.serial = shared'.serial) :
    shared = shared' ∧ first.query? = second.query? ∧ Call.invalidate ∉ between := by
  have hstep' := step_of_answer hsecond
  obtain ⟨query, hquery, hkept⟩ := (step_of_answer hfirst).kept_of_ok
  obtain ⟨query', hquery', hkept'⟩ := hstep'.kept_of_ok
  have hstamped := (orderly_after (before ++ [first])).stamped (mem_of_find? hkept)
  have hbetween := stamped_run hstamped between
  rw [← after_between] at hbetween
  have hsame := (hstep'.stamped hbetween).only _ (mem_of_find? hkept') hserial.symm
  obtain ⟨hkey, hshared⟩ := Prod.mk.inj hsame
  obtain ⟨hcatalog, hdirection, -⟩ := CacheKey.mk.inj hkey
  refine ⟨hshared.symm, ?_, fun hmem => ?_⟩
  · rw [hquery, hquery', Query.ext hcatalog hdirection]
  · -- an invalidation in between would have dropped the table, and its number with it
    obtain ⟨earlier, later, rfl⟩ := List.append_of_mem hmem
    have hdropped := stamped_run (stamped_run hstamped earlier).invalidate later
    have hrun : after (before ++ first :: (earlier ++ Call.invalidate :: later))
        = run (run (after (before ++ [first])) earlier).invalidate.1 later :=
      (after_between before _ first).trans (List.foldl_append ..)
    rw [← hrun] at hdropped
    exact (hstep'.stamped hdropped).only _ (mem_of_find? hkept') hserial.symm

/-- **Two answers are the same table** exactly if the calls ask for the same and there is no
    invalidation in between. -/
theorem serial_eq_iff (hfirst : answer before first = some (.ok shared))
    (hsecond : answer (before ++ first :: between) second = some (.ok shared')) :
    shared.serial = shared'.serial
      ↔ first.query? = second.query? ∧ Call.invalidate ∉ between := by
  constructor
  · intro hserial
    exact (same_of_serial_eq hfirst hsecond hserial).2
  · rintro ⟨hquery, hbetween⟩
    have hstep := step_of_answer hsecond
    obtain ⟨query, hquery', -⟩ := hstep.kept_of_ok
    have hkept := kept_after hfirst (hquery.trans hquery') hbetween
    have hgiven := hstep.ok_of_kept hquery' hkept
    rw [Except.ok.inj (Option.some.inj hgiven)]

/-- A failed call is forgotten: the next one that asks for the same runs its resolver. -/
theorem runsResolver_after_error {e : Error} (hanswer : answer before call = some (.error e))
    (hquery : call.query? = some query) (hbetween : ∀ c ∈ between, c.query? ≠ call.query?) :
    (after (before ++ call :: between)).RunsResolver query := by
  have hstep := step_of_answer hanswer
  obtain ⟨hsame, query', hquery', hkept⟩ := hstep.of_error
  obtain rfl := Option.some.inj (hquery.symm.trans hquery')
  refine runsResolver ?_
  rw [after_between, hsame]
  refine run_induction (P := fun cache => cache.kept? query = none) (fun c hc cache h => ?_) hkept
  exact (step_perform cache c).not_kept (fun heq => hbetween c hc (heq.trans hquery.symm)) h

end Answers

/-- **The cache is transparent over any history.** Its generation is the number of invalidations
    so far, in a counter of 64 bits, its size the number of different queries with a successful call since the last one.
    Two successful calls get the same table exactly if they ask for the same with no
    invalidation in between, and then the second does not run its resolver. A failed call
    leaves the cache as it was, and the next call that asks for the same runs its resolver. If
    all tables are read off documents that fingerprints tell apart, every call gives what
    reading off gives, table or error. -/
theorem history_transparent :
    (∀ calls, (after calls).generation = calls.countP Call.isInvalidate % counterSize)
      ∧ (∀ calls, (after calls).size = {query | Answered calls query}.ncard)
      ∧ (∀ before first between second shared shared',
          answer before first = some (.ok shared) →
          answer (before ++ first :: between) second = some (.ok shared') →
            (shared.serial = shared'.serial
                ↔ first.query? = second.query? ∧ Call.invalidate ∉ between)
              ∧ (shared.serial = shared'.serial → shared = shared'
                ∧ ∀ query, second.query? = some query →
                    (after (before ++ first :: between)).SparesResolver query shared'))
      ∧ (∀ before call e, answer before call = some (.error e) →
          after (before ++ [call]) = after before
            ∧ ∀ between query, call.query? = some query →
                (∀ c ∈ between, c.query? ≠ call.query?) →
                  (after (before ++ call :: between)).RunsResolver query)
      ∧ ∀ documents : Set String, Set.InjOn Digest.fingerprintOf documents →
          ∀ calls, (∀ call ∈ calls, Call.ReadsOff documents call) →
            ∀ text ∈ documents, ∀ catalog, Catalog.load text = .ok catalog → ∀ direction,
              ((after calls).resolve catalog direction).1.map Shared.table
                = RenameTable.ofCatalog catalog direction := by
  refine ⟨generation_after, size_after, ?_, ?_, ?_⟩
  · intro before first between second shared shared' hfirst hsecond
    refine ⟨serial_eq_iff hfirst hsecond, fun hserial => ?_⟩
    obtain ⟨rfl, hsame, hbetween⟩ := same_of_serial_eq hfirst hsecond hserial
    exact ⟨rfl, fun query hquery => sparesResolver
      (kept_after hfirst (hsame.trans hquery) hbetween)⟩
  · intro before call e hanswer
    exact ⟨(step_of_answer hanswer).of_error.1, fun between query => runsResolver_after_error hanswer⟩
  · intro documents hfree calls hcalls text htext catalog hload direction
    have hgenuine : (after calls).Genuine documents :=
      run_induction (fun call hcall cache h => (step_perform cache call).genuine (hcalls call hcall) h)
        fun _ he => nomatch he
    exact resolve_eq_ofCatalog hfree hgenuine htext hload direction

/-- Two catalogs that are asked for in one direction, a failed call, and an invalidation. -/
theorem history_transparent_two_catalogs :
    ∃ old new : Catalog, Catalog.load "v1\to\tn\nCLASS\ta\tOld\n" = .ok old
      ∧ Catalog.load "v1\to\tn\nCLASS\ta\tNew\n" = .ok new
      ∧ RenameTable.ofCatalog old ⟨"o", "n"⟩ ≠ RenameTable.ofCatalog new ⟨"o", "n"⟩
      ∧ (let calls : List Call := [.resolve new ⟨"o", "n"⟩, .invalidate, .resolve new ⟨"o", "n"⟩]
        (after calls).generation = 1
          ∧ ((after calls).resolve old ⟨"o", "n"⟩).1.map Shared.table
              = RenameTable.ofCatalog old ⟨"o", "n"⟩)
      ∧ answer [] (.resolve old ⟨"o", "x"⟩) = some (.error (.unknownNamespace "x" ["o", "n"]))
      ∧ (after [.resolve old ⟨"o", "x"⟩]).RunsResolver ⟨old.fingerprint, ⟨"o", "x"⟩⟩ := by
  let catalog (name : String) : Catalog :=
    { format := .tinyV1
      namespaces := ⟨["o", "n"]⟩
      classes := [⟨["a", name], [], []⟩]
      fingerprint := Digest.fingerprintOf ("v1\to\tn\nCLASS\ta\t" ++ name ++ "\n") }
  let old := catalog "Old"
  let new := catalog "New"
  have hold : Catalog.load "v1\to\tn\nCLASS\ta\tOld\n" = .ok old := rfl
  have hnew : Catalog.load "v1\to\tn\nCLASS\ta\tNew\n" = .ok new := rfl
  have hfree : Set.InjOn Digest.fingerprintOf
      {"v1\to\tn\nCLASS\ta\tOld\n", "v1\to\tn\nCLASS\ta\tNew\n"} := by
    have hne : Digest.fingerprintOf "v1\to\tn\nCLASS\ta\tOld\n"
        ≠ Digest.fingerprintOf "v1\to\tn\nCLASS\ta\tNew\n" := by decide +kernel
    rintro x (rfl | rfl) y (rfl | rfl) heq
    · rfl
    · exact absurd heq hne
    · exact absurd heq.symm hne
    · rfl
  have hfails : answer [] (.resolve old ⟨"o", "x"⟩)
      = some (.error (.unknownNamespace "x" ["o", "n"])) := rfl
  obtain ⟨hgeneration, -, -, hfailed, htransparent⟩ := history_transparent
  refine ⟨old, new, hold, hnew, by decide, ⟨hgeneration _, ?_⟩, hfails, ?_⟩
  · refine htransparent _ hfree _ (fun call hcall => ?_) _ (.inl rfl) old hold _
    have hreads : Call.ReadsOff {"v1\to\tn\nCLASS\ta\tOld\n", "v1\to\tn\nCLASS\ta\tNew\n"}
        (.resolve new ⟨"o", "n"⟩) := ⟨_, .inr rfl, hnew⟩
    rcases hcall with _ | ⟨_, _ | ⟨_, _ | ⟨_, hcall⟩⟩⟩
    · exact hreads
    · exact trivial
    · exact hreads
    · exact nomatch hcall
  · exact (hfailed [] _ _ hfails).2 [] _ rfl fun _ hc => nomatch hc

end Nomenclator.Naming.Cache
