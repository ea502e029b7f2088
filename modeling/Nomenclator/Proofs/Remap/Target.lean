import Nomenclator.Proofs.Naming.Cache
import Nomenclator.Proofs.Naming.RenameTable
import Nomenclator.Proofs.Remap.Act

/-! # Targets — how one target of a job is made

    A target is prepared, and then its request is answered.

    * `prepare` — resolves the table, and finds that the output can be taken again,
      or clears the place for it and tells the request;
    * `answer` — runs the tool on the request and writes the sidecar.

    Each step of these is described once, for a success and for a failure
    (`ends_prepare`, `ends_answer`); what is not named there rests.  A table that
    comes from a cache is for the direction that was asked for, as long as the
    cache is faithful, so the fingerprints of a request do not depend on the state
    of the cache (`Remapper.fingerprints`). -/

namespace Nomenclator

-- ── Tables ───────────────────────────────────────────────────────────────────

namespace Naming

/-- Every table in the cache is for the direction under which it is kept. -/
def Cache.Faithful (cache : Cache) : Prop :=
  ∀ entry ∈ cache.entries, entry.2.table.direction = entry.1.direction

theorem Cache.faithful_invalidate (cache : Cache) : cache.invalidate.1.Faithful :=
  fun _ h => nomatch h

theorem Cache.Faithful.find? {cache : Cache} (h : cache.Faithful) {key : CacheKey}
    {shared : Shared} (hfind : cache.find? key = some shared) :
    shared.table.direction = key.direction :=
  h _ (mem_of_find? hfind)

/-- No table is dropped, and the new ones are for the directions under which they are kept. -/
structure Cache.Grows (cache cache' : Cache) : Prop where
  generation : cache'.generation = cache.generation
  faithful : cache.Faithful → cache'.Faithful
  kept : ∀ query shared, cache.kept? query = some shared → cache'.kept? query = some shared

theorem Cache.Grows.refl (cache : Cache) : cache.Grows cache := ⟨rfl, id, fun _ _ h => h⟩

theorem Cache.Grows.trans {a b c : Cache} (hab : a.Grows b) (hbc : b.Grows c) : a.Grows c :=
  ⟨hbc.generation.trans hab.generation, hbc.faithful ∘ hab.faithful,
    fun query shared h => hbc.kept query shared (hab.kept query shared h)⟩

/-- What resolving leaves of a cache, and what it gives. -/
structure Cache.Resolved (cache : Cache) (catalog : Catalog) (direction : Direction)
    (result : Except Error Shared × Cache × Log) : Prop where
  grows : cache.Grows result.2.1
  kept : ∀ shared, result.1 = .ok shared →
    result.2.1.kept? ⟨catalog.fingerprint, direction⟩ = some shared
  direction : cache.Faithful → ∀ shared, result.1 = .ok shared → shared.table.direction = direction

theorem Cache.resolved_resolve (cache : Cache) (catalog : Catalog) (direction : Direction) :
    cache.Resolved catalog direction (cache.resolve catalog direction) := by
  have hstep : Step cache (.resolve catalog direction) (some (cache.resolve catalog direction).1)
      (cache.resolve catalog direction).2.1 := step_perform cache (.resolve catalog direction)
  generalize cache.resolve catalog direction = resolved at hstep
  obtain ⟨result, cache', log⟩ := resolved
  have hkept : ∀ shared, result = .ok shared →
      cache'.kept? ⟨catalog.fingerprint, direction⟩ = some shared := by
    rintro shared rfl
    obtain ⟨query, hquery, hkept⟩ := hstep.kept_of_ok
    obtain rfl := Option.some.inj hquery
    exact hkept
  have hstays : ∀ query shared, cache.kept? query = some shared →
      cache'.kept? query = some shared :=
    fun query shared h => hstep.kept (fun heq => nomatch heq) h
  cases hstep with
  | @hit _ query shared hquery hfound =>
      obtain rfl := Option.some.inj hquery
      refine ⟨⟨rfl, id, hstays⟩, hkept, fun h shared' hshared => ?_⟩
      obtain rfl := Except.ok.inj hshared
      exact h.find? hfound
  | failed => exact ⟨⟨rfl, id, hstays⟩, hkept, fun _ _ h => nomatch h⟩
  | @stored _ query table hquery hfound hgives =>
      obtain rfl := Option.some.inj hquery
      have hdirection : table.direction = direction := RenameTable.direction_ofCatalog hgives
      refine ⟨⟨generation_store _ _, fun h entry hentry => ?_, hstays⟩, hkept,
        fun _ shared hshared => ?_⟩
      · have hentry : entry ∈ (cache.store _ table).entries := hentry
        rw [store_of_none hfound] at hentry
        rcases List.mem_append.1 hentry with hold | hnew
        · exact h entry hold
        · rw [List.mem_singleton.1 hnew]
          exact hdirection
      · obtain rfl := Except.ok.inj hshared
        exact hdirection

end Naming

namespace Remap

open Files (Path FileTree IoFault)

-- ── What rests ───────────────────────────────────────────────────────────────

/-- Nothing has changed but the log and the tables that are kept, and of these there are only
    more. -/
structure Bench.Rests {ρ : Type} (b b' : Bench ρ) : Prop where
  files : b'.files = b.files
  now : b'.now = b.now
  requests : b'.requests = b.requests
  cache : b.cache.Grows b'.cache

theorem Bench.Rests.refl {ρ : Type} (b : Bench ρ) : b.Rests b := ⟨rfl, rfl, rfl, .refl b.cache⟩

theorem Bench.Rests.trans {ρ : Type} {a b c : Bench ρ} (hab : a.Rests b) (hbc : b.Rests c) :
    a.Rests c :=
  ⟨hbc.files.trans hab.files, hbc.now.trans hab.now, hbc.requests.trans hab.requests,
    hab.cache.trans hbc.cache⟩

theorem Bench.Rests.generation {ρ : Type} {b b' : Bench ρ} (h : b.Rests b') :
    b'.cache.generation = b.cache.generation := h.cache.generation

theorem Bench.Rests.faithful {ρ : Type} {b b' : Bench ρ} (h : b.Rests b') :
    b.cache.Faithful → b'.cache.Faithful := h.cache.faithful

/-- A change of the files may be made before or after. -/
theorem Bench.Rests.withFiles {ρ : Type} {b b' : Bench ρ} (h : b.Rests b') (t : FileTree) :
    Bench.Rests { b with files := t } { b' with files := t } :=
  ⟨rfl, h.now, h.requests, h.cache⟩

/-- Is the error that of a job one of whose targets is its input? -/
def Error.refusesOutput : Error → Bool
  | .outputIsInput _ => true
  | _ => false

namespace Act

variable {ρ : Type}

theorem ends_resolveTable (catalog : Naming.Catalog) (direction : Direction) (b : Bench ρ) :
    Ends (resolveTable catalog direction) b
      (fun table b' => b.Rests b' ∧ (b.cache.Faithful → table.direction = direction)
        ∧ ∃ shared, b'.cache.kept? ⟨catalog.fingerprint, direction⟩ = some shared
          ∧ table = shared.table)
      (fun e b' => b.Rests b' ∧ e.refusesOutput = false) := by
  refine ends_get_bind ?_
  have hresolved := b.cache.resolved_resolve catalog direction
  generalize b.cache.resolve catalog direction = resolved at hresolved
  obtain ⟨result, cache, log⟩ := resolved
  refine ends_modify_bind ?_
  have hrests : b.Rests { b with cache, log := b.log ++ log } :=
    ⟨rfl, rfl, rfl, hresolved.grows⟩
  cases result with
  | ok shared =>
      exact ends_pure ⟨hrests, fun h => hresolved.direction h shared rfl, shared,
        hresolved.kept shared rfl, rfl⟩
  | error e => exact ends_throw ⟨hrests, rfl⟩

theorem ends_report (level : Level) (message : String) (b : Bench ρ) {E : Error → Bench ρ → Prop} :
    Ends (report level message) b (fun _ b' => b.Rests b') E :=
  ⟨⟨rfl, rfl, rfl, .refl _⟩⟩

theorem ends_invalidateCache (b : Bench ρ) {E : Error → Bench ρ → Prop} :
    Ends invalidateCache b
      (fun _ b' => b'.files = b.files ∧ b'.cache = b.cache.invalidate.1) E :=
  ⟨⟨rfl, rfl⟩⟩

theorem ends_discardOutput (output : Path) (b : Bench ρ) {E : Error → Bench ρ → Prop} :
    Ends (discardOutput output) b
      (fun _ b' => Bench.Rests { b with files := discarding b.files output } b') E := by
  obtain ⟨log, hrun⟩ := run_discardOutput output b
  refine ⟨?_⟩
  rw [hrun]
  exact ⟨rfl, rfl, rfl, .refl _⟩

theorem ends_createParent (path : Path) (b : Bench ρ) :
    Ends (createParent path) b
      (fun _ b' => Bench.Rests { b with files := withParent b.files path } b')
      (fun e b' => Bench.Rests { b with files := withParent b.files path } b'
        ∧ ∃ parent fault, e = .io parent fault) := by
  rw [createParent, withParent]
  cases path.parent? with
  | none => exact ends_pure (.refl b)
  | some parent =>
      refine ends_get_bind ?_
      dsimp only
      rcases b.files.createDirAll parent with ⟨result, t⟩
      refine ends_modify_bind ?_
      cases result with
      | ok _ => exact ends_pure (.refl _)
      | error f => exact ends_throw ⟨.refl _, parent, f, rfl⟩

end Act

namespace Remapper

open Act

-- ── Preparing ────────────────────────────────────────────────────────────────

/-- The fingerprints of the tables that a target is made with: of the table from the source of
    the job to the label of the target, and of those that are always applied. -/
def fingerprints (r : Remapper) (catalog : Naming.Catalog) (job : Job) (label : String) :
    List String :=
  Digest.fingerprint (Layer.identity "primary" { source := job.source, dest := label }
    catalog.fingerprint) :: r.layers.map Layer.fingerprint

/-- Where the layers of a target come from: the table that is kept in the end for its label
    comes first, and those that are always applied follow. -/
structure Drawn (r : Remapper) (catalog : Naming.Catalog) (job : Job) (label : String)
    (layers : List Layer) (before after : Naming.Cache) : Prop where
  prints : before.Faithful → layers.map Layer.fingerprint = r.fingerprints catalog job label
  kept : ∃ shared, after.kept? ⟨catalog.fingerprint, { source := job.source, dest := label }⟩
      = some shared
    ∧ layers = Layer.make "primary" shared.table catalog.fingerprint :: r.layers

/-- There is an output, and its sidecar says that it was made as expected. -/
def Reusable (t : FileTree) (output : Path) (expected : Sidecar) : Prop :=
  t.isFile output = true ∧ ∃ s, (Sidecar.load t output).1 = some s ∧ s.sameBuild expected = true

/-- The tree in which the tool is to make an output. -/
def prepared (t : FileTree) (output : Path) : FileTree :=
  withParent (discarding t output) output

/-- Finds that an output can be taken again, or clears the place for it and tells the
    request. -/
def prepare (r : Remapper) (catalog : Naming.Catalog) (job : Job) (classpath : List Path)
    (inputDigest : String) (force : Bool) (target : Target) : Act Request (Option Request) := do
  let direction : Direction := { source := job.source, dest := target.label }
  let table ← resolveTable catalog direction
  let layers := Layer.make "primary" table catalog.fingerprint :: r.layers
  let expected := r.sidecar inputDigest layers
  let reuse ← if force then pure false else isCurrent target.output expected
  if reuse then return none
  let source := job.input.text
  let dest := target.output.text
  let names := direction.text
  report .info s!":remapping {source} ({names}) -> {dest}"
  discardOutput target.output
  createParent target.output
  return some (r.request job target.output layers classpath)

/-- Runs the tool and writes the sidecar. -/
def answer (r : Remapper) (job : Job) (inputDigest : String) (target : Target)
    (request : Request) : Act Request Outcome := do
  r.runTool { source := job.source, dest := target.label } request
  saveSidecar target.output (r.sidecar inputDigest request.layers)
  return { label := target.label, output := target.output, cached := false }

theorem makeTarget_eq (r : Remapper) (catalog : Naming.Catalog) (job : Job)
    (classpath : List Path) (inputDigest : String) (force : Bool) (target : Target) :
    r.makeTarget catalog job classpath inputDigest force target
      = r.prepare catalog job classpath inputDigest force target >>= fun
        | none => return { label := target.label, output := target.output, cached := true }
        | some request => r.answer job inputDigest target request := by
  rw [makeTarget, prepare, bind_assoc]
  refine bind_congr fun table => ?_
  dsimp only
  rw [ite_bind, ite_bind, bind_assoc]
  refine bind_congr fun reuse => ?_
  cases reuse with
  | true => rfl
  | false =>
      simp only [Bool.false_eq_true, if_false, bind_assoc, pure_bind]
      rfl

theorem ends_isCurrent (output : Path) (expected : Sidecar) (b : Bench Request)
    {E : Error → Bench Request → Prop} :
    Ends (isCurrent output expected) b
      (fun reuse b' => b.Rests b' ∧ (reuse = true → Reusable b.files output expected)) E := by
  refine ends_get_bind ?_
  dsimp only
  by_cases hfile : b.files.isFile output = true
  · rw [if_pos hfile]
    have hreusable : ∀ s, (Sidecar.load b.files output).1 = some s →
        s.sameBuild expected = true → Reusable b.files output expected :=
      fun s hs hsame => ⟨hfile, s, hs, hsame⟩
    generalize Sidecar.load b.files output = loaded at hreusable
    obtain ⟨found, log⟩ := loaded
    refine ends_modify_bind ?_
    cases found with
    | none => exact ends_pure ⟨⟨rfl, rfl, rfl, .refl _⟩, fun h => nomatch h⟩
    | some s => exact ends_pure ⟨⟨rfl, rfl, rfl, .refl _⟩, hreusable s rfl⟩
  · rw [if_neg hfile]
    exact ends_pure ⟨.refl b, fun h => nomatch h⟩

/-- What preparing gives: nothing, if the output can be taken again, or the request, in the
    tree that is prepared for it. -/
def Prepared (r : Remapper) (job : Job) (classpath : List Path) (inputDigest : String)
    (target : Target) (layers : List Layer) (b : Bench Request) :
    Option Request → Bench Request → Prop
  | none, b' =>
    b.Rests b' ∧ Reusable b.files target.output (r.sidecar inputDigest layers)
  | some request, b' =>
    Bench.Rests { b with files := prepared b.files target.output } b'
      ∧ request = r.request job target.output layers classpath

theorem ends_prepare (r : Remapper) (catalog : Naming.Catalog) (job : Job) (classpath : List Path)
    (inputDigest : String) (force : Bool) (target : Target) (b : Bench Request) :
    Ends (r.prepare catalog job classpath inputDigest force target) b
      (fun found b' => ∃ layers, r.Prepared job classpath inputDigest target layers b found b'
        ∧ r.Drawn catalog job target.label layers b.cache b'.cache)
      (fun e b' => e.refusesOutput = false
        ∧ ∃ t, (t = b.files ∨ t = prepared b.files target.output)
          ∧ Bench.Rests { b with files := t } b') := by
  rw [prepare]
  refine (ends_resolveTable catalog _ b).mono (fun _ _ h => h)
    (fun e b' h => ⟨h.2, b.files, .inl rfl, h.1⟩) |>.bind fun table b₁ hb₁ => ?_
  dsimp only
  generalize hlayers : Layer.make "primary" table catalog.fingerprint :: r.layers = layers
  have hdrawn : ∀ b' : Bench Request, b₁.cache.Grows b'.cache →
      r.Drawn catalog job target.label layers b.cache b'.cache := by
    intro b' hgrows
    obtain ⟨hrests₁, hdirection, shared, hkept, rfl⟩ := hb₁
    refine ⟨fun hfaithful => ?_, shared, hgrows.kept _ _ hkept, hlayers.symm⟩
    rw [← hlayers, List.map_cons, Layer.make, hdirection hfaithful]
    rfl
  have hreuse : Ends (if force = true then pure false
        else isCurrent target.output (r.sidecar inputDigest layers)) b₁
      (fun reuse b' => b₁.Rests b'
        ∧ (reuse = true → Reusable b₁.files target.output (r.sidecar inputDigest layers)))
      (fun e b' => e.refusesOutput = false
        ∧ ∃ t, (t = b.files ∨ t = prepared b.files target.output)
          ∧ Bench.Rests { b with files := t } b') := by
    by_cases hforce : force = true
    · rw [if_pos hforce]
      exact ends_pure ⟨.refl b₁, fun h => nomatch h⟩
    · rw [if_neg hforce]
      exact ends_isCurrent target.output _ b₁
  rw [ite_bind]
  refine hreuse.bind fun reuse b₂ hb₂ => ?_
  have hrests₂ : b.Rests b₂ := hb₁.1.trans hb₂.1
  cases reuse with
  | true =>
      refine ends_pure ⟨layers, ⟨hrests₂, ?_⟩, hdrawn b₂ hb₂.1.cache⟩
      rw [← hb₁.1.files]
      exact hb₂.2 rfl
  | false =>
      simp only [Bool.false_eq_true, if_false]
      refine (ends_report _ _ b₂).bind fun _ b₃ hb₃ => ?_
      refine (ends_discardOutput target.output b₃).bind fun _ b₄ hb₄ => ?_
      have hrests₄ := ((hrests₂.trans hb₃).withFiles _).trans hb₄
      rw [(hrests₂.trans hb₃).files] at hrests₄
      have hprepared : ∀ b₅, Bench.Rests { b₄ with files := withParent b₄.files target.output } b₅ →
          Bench.Rests { b with files := prepared b.files target.output } b₅ := by
        intro b₅ hb₅
        have hrests₅ := (hrests₄.withFiles _).trans hb₅
        rwa [hrests₄.files] at hrests₅
      refine (ends_createParent target.output b₄).mono (fun _ _ h => h)
        (fun e b' h => ⟨by obtain ⟨parent, fault, rfl⟩ := h.2; rfl, _, .inr rfl,
          hprepared b' h.1⟩) |>.bind fun _ b₅ hb₅ => ?_
      have hgrows := ((hb₂.1.cache.trans hb₃.cache).trans hb₄.cache).trans hb₅.cache
      exact ends_pure ⟨layers, ⟨hprepared b₅ hb₅, rfl⟩, hdrawn b₅ hgrows⟩

-- ── Answering ────────────────────────────────────────────────────────────────

/-- The bench after the tool has been run. -/
def afterTool (r : Remapper) (request : Request) (b : Bench Request) : Bench Request :=
  { b with files := (r.tool.run request b.files).2, requests := b.requests ++ [request] }

theorem ends_runTool (r : Remapper) (direction : Direction) (request : Request)
    (b : Bench Request) :
    Ends (r.runTool direction request) b
      (fun _ b' => b' = r.afterTool request b ∧ (r.tool.run request b.files).1 = .ok ()
        ∧ b'.files.isFile request.output = true)
      (fun e b' => b' = r.afterTool request b ∧ e.refusesOutput = false) := by
  rw [runTool, afterTool]
  refine ends_modify_bind (ends_get_bind ?_)
  cases r.tool.run request b.files with
  | mk result t =>
      refine ends_modify_bind ?_
      cases result with
      | error chain => exact ends_throw ⟨rfl, rfl⟩
      | ok _ =>
          refine ends_get_bind ?_
          cases hfile : t.isFile request.output with
          | true =>
              rw [if_neg (by simp only [hfile]; exact Bool.false_ne_true)]
              exact ends_pure ⟨rfl, rfl, hfile⟩
          | false =>
              rw [if_pos (by simp only [hfile]; rfl)]
              exact ends_throw ⟨rfl, rfl⟩

/-- What the sidecar of an output says when it is written on a bench. -/
def stamped (s : Sidecar) (b : Bench Request) : Sidecar := { s with writtenAt := b.now }

theorem ends_saveSidecar (output : Path) (s : Sidecar) (b : Bench Request) :
    Ends (saveSidecar output s) b
      (fun _ b' => (Sidecar.save b.files output (stamped s b)).1 = .ok ()
        ∧ b' = { b with files := (Sidecar.save b.files output (stamped s b)).2 })
      (fun e b' => b' = { b with files := (Sidecar.save b.files output (stamped s b)).2 }
        ∧ e.refusesOutput = false) := by
  refine ends_get_bind ?_
  rw [stamped]
  dsimp only
  rcases Sidecar.save b.files output { s with writtenAt := b.now } with ⟨result, t⟩
  refine ends_modify_bind ?_
  cases result with
  | ok _ => exact ends_pure ⟨rfl, rfl⟩
  | error fault => exact ends_throw ⟨rfl, rfl⟩

-- ── Setting up ───────────────────────────────────────────────────────────────

/-- What a job finds out before it makes its targets: the class path for the tool and the
    digest of the input. -/
def setUp (job : Job) : Act Request (List Path × String) := do
  if !(← ask (·.isFile job.input)) then throw (.missingInput job.input)
  let classpath ← resolveClasspath job.input [] job.classpath
  match (← get).files.readBytes job.input with
  | .error fault => throw (.io job.input fault)
  | .ok bytes => return (classpath, Digest.fingerprint bytes)

theorem produce_eq (r : Remapper) (catalog : Naming.Catalog) (job : Job) (force : Bool) :
    r.produce catalog job force = setUp job >>= fun found =>
      r.makeTargets catalog job found.1 found.2 force job.targets := by
  rw [produce, setUp, bind_assoc]
  refine bind_congr fun isFile => ?_
  cases isFile with
  | false => rfl
  | true =>
      simp only [Bool.not_true, Bool.false_eq_true, if_false, bind_assoc]
      refine bind_congr fun classpath => bind_congr fun b => ?_
      cases b.files.readBytes job.input with
      | error fault => rfl
      | ok bytes => simp only [pure_bind]

theorem ends_resolveClasspath (input : Path) (seen entries : List Path) (b : Bench Request) :
    Ends (resolveClasspath input seen entries) b (fun _ b' => b' = b)
      (fun e b' => b' = b ∧ e.refusesOutput = false) := by
  induction entries generalizing seen with
  | nil => exact ends_pure rfl
  | cons entry later ih =>
      rw [resolveClasspath]
      by_cases hinput : entry.sameAs input = true
      · rw [if_pos hinput]
        exact ih seen
      rw [if_neg hinput]
      refine ends_get_bind ?_
      by_cases hmissing : (!b.files.pathExists entry) = true
      · rw [if_pos hmissing]
        exact ends_throw ⟨rfl, rfl⟩
      rw [if_neg hmissing]
      by_cases hseen : seen.any entry.sameAs = true
      · rw [if_pos hseen]
        exact ih seen
      rw [if_neg hseen]
      refine (ih (entry :: seen)).bind fun rest b' hb' => ?_
      exact ends_pure hb'

theorem ends_setUp (job : Job) (b : Bench Request) :
    Ends (setUp job) b
      (fun found b' => b' = b
        ∧ ∃ bytes, b.files.readBytes job.input = .ok bytes ∧ found.2 = Digest.fingerprint bytes)
      (fun e b' => b' = b ∧ e.refusesOutput = false) := by
  rw [setUp]
  refine ends_get_bind ?_
  by_cases hmissing : (!b.files.isFile job.input) = true
  · rw [if_pos hmissing]
    exact ends_throw ⟨rfl, rfl⟩
  rw [if_neg hmissing]
  refine (ends_resolveClasspath job.input [] job.classpath b).bind fun classpath b' hb' => ?_
  subst hb'
  refine ends_get_bind ?_
  cases hread : b'.files.readBytes job.input with
  | error fault => exact ends_throw ⟨rfl, rfl⟩
  | ok bytes => exact ends_pure ⟨rfl, bytes, rfl, rfl⟩

end Remapper

end Remap

end Nomenclator
