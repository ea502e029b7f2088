import Nomenclator.Proofs.Files.Forward
import Nomenclator.Proofs.Remap.InPlace

/-! # Class paths — what the tool is given beside its input

    A job turns the list of entries that it is given into the class path of all its
    requests, before it changes anything.

    * `run_resolveClasspath` — the first entry that has to be there and is not, or
      the entries other than the input, each where it comes first;
    * `Asks` — all requests that a step makes are of one kind, and no failure of the
      step names an entry.  After the class path has been resolved this holds of
      every step of a job;
    * `classpath_reaches_tool` — what becomes of the list in every kind of run.

    A run in place resolves the list after the archive has been moved, with the dev
    path as its input.  So an entry that leads to the archive is missing there. -/

namespace Nomenclator

namespace Remap

open Files Act

-- ── Entries ──────────────────────────────────────────────────────────────────

/-- The class path of a request for an archive: the entries other than the archive, each where
    it comes first. -/
def classpathFor (archive : Path) (entries : List Path) : List Path :=
  (entries.filter fun entry => !entry.sameAs archive).eraseDupsBy Path.sameAs

/-- The first entry other than the archive that is not there. -/
def firstMissing? (t : FileTree) (archive : Path) (entries : List Path) : Option Path :=
  entries.find? fun entry => !entry.sameAs archive && !t.pathExists entry

theorem firstMissing?_cons (t : FileTree) (archive entry : Path) (later : List Path) :
    firstMissing? t archive (entry :: later)
      = if entry.sameAs archive then firstMissing? t archive later
        else if !t.pathExists entry then some entry else firstMissing? t archive later := by
  rw [firstMissing?, List.find?_cons]
  cases entry.sameAs archive <;> cases t.pathExists entry <;> rfl

theorem firstMissing?_of_exist {t : FileTree} {entries : List Path}
    (h : ∀ entry ∈ entries, t.pathExists entry = true) (archive : Path) :
    firstMissing? t archive entries = none := by
  refine List.find?_eq_none.2 fun entry hentry => ?_
  rw [h entry hentry, Bool.not_true, Bool.and_false]
  exact Bool.false_ne_true

/-- The class path behind entries that have been seen. -/
def unseen (archive : Path) (seen entries : List Path) : List Path :=
  (entries.filter fun entry => !entry.sameAs archive && !seen.any entry.sameAs).eraseDupsBy
    Path.sameAs

theorem unseen_cons (archive entry : Path) (seen later : List Path) :
    unseen archive seen (entry :: later)
      = if entry.sameAs archive || seen.any entry.sameAs then unseen archive seen later
        else entry :: unseen archive (entry :: seen) later := by
  rw [unseen, List.filter_cons]
  by_cases hskip : (entry.sameAs archive || seen.any entry.sameAs) = true
  · rw [if_pos hskip, if_neg (by rw [← Bool.not_or, hskip]; exact Bool.false_ne_true)]
    rfl
  · rw [if_neg hskip, if_pos (by rw [← Bool.not_or, Bool.eq_false_of_not_eq_true hskip]; rfl),
      List.eraseDupsBy_cons, List.filter_filter, unseen]
    congr 3
    funext other
    rw [List.any_cons]
    cases other.sameAs archive <;> cases other.sameAs entry <;>
      cases seen.any other.sameAs <;> rfl

variable {ρ : Type}

theorem run_resolveClasspath_seen (archive : Path) (seen entries : List Path) (b : Bench ρ) :
    (resolveClasspath archive seen entries).run.run b
      = (match firstMissing? b.files archive entries with
        | some entry => .error (.missingClasspath entry)
        | none => .ok (unseen archive seen entries), b) := by
  induction entries generalizing seen with
  | nil => rfl
  | cons entry later ih =>
      rw [resolveClasspath, firstMissing?_cons, unseen_cons]
      by_cases hinput : entry.sameAs archive = true
      · rw [if_pos hinput, if_pos hinput, hinput, Bool.true_or, if_pos rfl]
        exact ih seen
      rw [if_neg hinput, if_neg hinput, Bool.eq_false_of_not_eq_true hinput, Bool.false_or, ask]
      rw [bind_assoc, run_get_bind, pure_bind]
      by_cases hmissing : (!b.files.pathExists entry) = true
      · rw [if_pos hmissing, if_pos hmissing]
        rfl
      rw [if_neg hmissing, if_neg hmissing]
      by_cases hseen : seen.any entry.sameAs = true
      · rw [if_pos hseen, if_pos hseen]
        exact ih seen
      rw [if_neg hseen, if_neg hseen, run_bind, ih]
      cases firstMissing? b.files archive later with
      | some missing => rfl
      | none => rfl

/-- **The class path of a job**: the first entry that has to be there and is not, or all entries
    but the input, without repetitions. -/
theorem run_resolveClasspath (archive : Path) (entries : List Path) (b : Bench ρ) :
    (resolveClasspath archive [] entries).run.run b
      = (match firstMissing? b.files archive entries with
        | some entry => .error (.missingClasspath entry)
        | none => .ok (classpathFor archive entries), b) := by
  rw [run_resolveClasspath_seen, unseen, classpathFor]
  simp only [List.any_nil, Bool.not_false, Bool.and_true]

-- ── Requests ─────────────────────────────────────────────────────────────────

/-- The entry that an error names as missing. -/
def Error.missingPath? : Error → Option Path
  | .missingClasspath entry => some entry
  | _ => none

/-- The requests that have been made in between are of one kind. -/
def Bench.Asked (P : ρ → Prop) (b b' : Bench ρ) : Prop :=
  ∃ calls, b'.requests = b.requests ++ calls ∧ ∀ call ∈ calls, P call

theorem Bench.Asked.of_eq {P : ρ → Prop} {b b' : Bench ρ} (h : b'.requests = b.requests) :
    b.Asked P b' :=
  ⟨[], by rw [h, List.append_nil], fun _ hcall => nomatch hcall⟩

theorem Bench.Asked.trans {P : ρ → Prop} {a b c : Bench ρ} (hab : a.Asked P b)
    (hbc : b.Asked P c) : a.Asked P c := by
  obtain ⟨first, hfirst, hone⟩ := hab
  obtain ⟨second, hsecond, htwo⟩ := hbc
  refine ⟨first ++ second, by rw [hsecond, hfirst, List.append_assoc], fun call hcall => ?_⟩
  rcases List.mem_append.1 hcall with h | h
  · exact hone call h
  · exact htwo call h

namespace Act

variable {α β : Type} {P : ρ → Prop}

/-- The step makes requests of one kind only, and no failure of it names an entry of a class
    path. -/
structure Asks (P : ρ → Prop) (act : Act ρ α) : Prop where
  ends : ∀ b, Ends act b (fun _ b' => b.Asked P b')
    (fun e b' => b.Asked P b' ∧ e.missingPath? = none)

theorem Asks.bind {x : Act ρ α} {f : α → Act ρ β} (hx : Asks P x) (hf : ∀ a, Asks P (f a)) :
    Asks P (x >>= f) :=
  ⟨fun b => (hx.ends b).bind fun a b₁ hb₁ =>
    ((hf a).ends b₁).mono (fun _ _ h => hb₁.trans h) fun _ _ h => ⟨hb₁.trans h.1, h.2⟩⟩

theorem asks_pure (a : α) : Asks P (pure a : Act ρ α) := ⟨fun _ => ends_pure (.of_eq rfl)⟩

theorem asks_throw {e : Error} (h : e.missingPath? = none) : Asks P (throw e : Act ρ α) :=
  ⟨fun _ => ends_throw ⟨.of_eq rfl, h⟩⟩

theorem asks_get_bind {f : Bench ρ → Act ρ β} (h : ∀ b, Asks P (f b)) : Asks P (get >>= f) :=
  ⟨fun b => ends_get_bind ((h b).ends b)⟩

/-- A change that makes no request. -/
theorem asks_modify {g : Bench ρ → Bench ρ} (h : ∀ b, (g b).requests = b.requests) :
    Asks P (modify g : Act ρ Unit) :=
  ⟨fun b => ⟨.of_eq (h b)⟩⟩

theorem asks_modify_bind {g : Bench ρ → Bench ρ} {f : Unit → Act ρ β}
    (hg : ∀ b, (g b).requests = b.requests) (hf : Asks P (f ())) : Asks P (modify g >>= f) :=
  (asks_modify hg).bind fun _ => hf

/-- A step that fails with other errors and makes no request. -/
theorem Asks.of_ends {act : Act ρ α}
    (h : ∀ b, Ends act b (fun _ b' => b'.requests = b.requests)
      fun e b' => b'.requests = b.requests ∧ e.missingPath? = none) : Asks P act :=
  ⟨fun b => (h b).mono (fun _ _ h => .of_eq h) fun _ _ h => ⟨.of_eq h.1, h.2⟩⟩

theorem asks_report (level : Level) (message : String) :
    Asks P (report level message : Act ρ Unit) :=
  asks_modify fun _ => rfl

theorem asks_change (path : Path) (operation : FileTree → Except IoFault FileTree) :
    Asks P (change path operation : Act ρ Unit) := by
  refine asks_get_bind fun b => ?_
  cases operation b.files with
  | ok t => exact asks_modify fun _ => rfl
  | error fault => exact asks_throw rfl

theorem asks_createParent (path : Path) : Asks P (createParent path : Act ρ Unit) := by
  rw [createParent]
  cases path.parent? with
  | none => exact asks_pure ()
  | some parent =>
      refine asks_get_bind fun b => ?_
      dsimp only
      rcases b.files.createDirAll parent with ⟨result, t⟩
      refine asks_modify_bind (fun _ => rfl) ?_
      cases result with
      | ok _ => exact asks_pure ()
      | error fault => exact asks_throw rfl

theorem asks_resolveTable (catalog : Naming.Catalog) (direction : Direction) :
    Asks P (resolveTable catalog direction : Act ρ Naming.RenameTable) := by
  refine asks_get_bind fun b => ?_
  rcases b.cache.resolve catalog direction with ⟨result, cache, log⟩
  refine asks_modify_bind (fun _ => rfl) ?_
  cases result with
  | ok shared => exact asks_pure _
  | error e => exact asks_throw rfl

theorem asks_discardOutput (output : Path) : Asks P (discardOutput output : Act ρ Unit) :=
  .of_ends fun b => (ends_discardOutput output b).mono (fun _ _ h => h.requests) fun _ _ h => h

theorem asks_moveAside (archive dev : Path) : Asks P (moveAside archive dev : Act ρ Unit) := by
  rw [moveAside]
  refine asks_get_bind fun b => ?_
  dsimp only
  have hrename : Asks P (do
      change archive (·.rename archive dev)
      let source := archive.text
      let dest := dev.text
      report .info s!":moved {source} to {dest}" : Act ρ Unit) :=
    (asks_change archive _).bind fun _ => asks_report _ _
  by_cases hfound : b.files.pathExists dev = true
  · rw [if_pos hfound]
    exact (asks_change dev _).bind fun _ => hrename
  · rw [if_neg hfound]
    exact hrename

end Act

namespace Remapper

variable (r : Remapper) (catalog : Naming.Catalog)

-- ── Targets ──────────────────────────────────────────────────────────────────

theorem asks_isCurrent {P : Request → Prop} (output : Path) (expected : Sidecar) :
    Asks P (isCurrent output expected) := by
  refine asks_get_bind fun b => ?_
  dsimp only
  by_cases hfile : b.files.isFile output = true
  · rw [if_pos hfile]
    rcases Sidecar.load b.files output with ⟨found, log⟩
    refine asks_modify_bind (fun _ => rfl) ?_
    cases found with
    | none => exact asks_pure _
    | some s => exact asks_pure _
  · rw [if_neg hfile]
    exact asks_pure _

theorem asks_saveSidecar {P : Request → Prop} (output : Path) (s : Sidecar) :
    Asks P (saveSidecar output s) := by
  refine asks_get_bind fun b => ?_
  dsimp only
  rcases Sidecar.save b.files output { s with writtenAt := b.now } with ⟨result, t⟩
  refine asks_modify_bind (fun _ => rfl) ?_
  cases result with
  | ok _ => exact asks_pure ()
  | error fault => exact asks_throw rfl

/-- The tool is run on the request, and on no other. -/
theorem asks_runTool {P : Request → Prop} {request : Request} (h : P request)
    (direction : Direction) : Asks P (r.runTool direction request) := by
  refine ⟨fun b => ?_⟩
  have hasked : b.Asked P (r.afterTool request b) :=
    ⟨[request], rfl, fun call hcall => List.mem_singleton.1 hcall ▸ h⟩
  rw [runTool]
  refine ends_modify_bind (ends_get_bind ?_)
  rw [afterTool] at hasked
  rcases r.tool.run request b.files with ⟨result, t⟩
  refine ends_modify_bind ?_
  cases result with
  | error chain => exact ends_throw ⟨hasked, rfl⟩
  | ok _ =>
      refine ends_get_bind ?_
      by_cases hnone : (!t.isFile request.output) = true
      · rw [if_pos hnone]
        exact ends_throw ⟨hasked, rfl⟩
      · rw [if_neg hnone]
        exact ends_pure hasked

/-- The request is for the archive, with the class path that the entries make for it. -/
def For (archive : Path) (entries : List Path) (request : Request) : Prop :=
  request.input = archive ∧ request.classpath = classpathFor archive entries

variable (job : Job) (inputDigest : String) (force : Bool)

/-- A target is made by requests for the input of the job. -/
theorem asks_makeTarget (target : Target) :
    Asks (For job.input job.classpath) (r.makeTarget catalog job
      (classpathFor job.input job.classpath) inputDigest force target) := by
  rw [makeTarget]
  refine (asks_resolveTable catalog _).bind fun table => ?_
  dsimp only
  generalize Layer.make "primary" table catalog.fingerprint :: r.layers = layers
  have hreuse : Asks (For job.input job.classpath)
      (if force = true then pure false
        else isCurrent target.output (r.sidecar inputDigest layers)) := by
    by_cases hforce : force = true
    · rw [if_pos hforce]
      exact asks_pure _
    · rw [if_neg hforce]
      exact asks_isCurrent _ _
  rw [ite_bind]
  refine hreuse.bind fun reuse => ?_
  cases reuse with
  | true => exact asks_pure _
  | false =>
      simp only [Bool.false_eq_true, if_false]
      refine (asks_report _ _).bind fun _ => ?_
      refine (asks_discardOutput target.output).bind fun _ => ?_
      refine (asks_createParent target.output).bind fun _ => ?_
      refine (r.asks_runTool ⟨rfl, rfl⟩ _).bind fun _ => ?_
      exact (asks_saveSidecar target.output _).bind fun _ => asks_pure _

theorem asks_makeTargets (targets : List Target) :
    Asks (For job.input job.classpath) (r.makeTargets catalog job
      (classpathFor job.input job.classpath) inputDigest force targets) := by
  induction targets with
  | nil => exact asks_pure _
  | cons target later ih =>
      refine (r.asks_makeTarget catalog job inputDigest force target).bind fun outcome => ?_
      exact ih.bind fun outcomes => asks_pure _

-- ── Jobs ─────────────────────────────────────────────────────────────────────

/-- Setting up reads the class path in the tree that is there. -/
theorem ends_setUp_classpath (b : Bench Request) :
    Ends (setUp job) b
      (fun found b' => b' = b ∧ found.1 = classpathFor job.input job.classpath
        ∧ b.files.isFile job.input = true
        ∧ firstMissing? b.files job.input job.classpath = none)
      (fun e b' => b' = b ∧ e.missingPath? = if b.files.isFile job.input
        then firstMissing? b.files job.input job.classpath else none) := by
  rw [setUp]
  refine ends_get_bind ?_
  by_cases hfile : b.files.isFile job.input = true
  swap
  · rw [if_pos (by simp only [Bool.eq_false_of_not_eq_true hfile]; rfl), if_neg hfile]
    exact ends_throw ⟨rfl, rfl⟩
  rw [if_neg (by simp only [hfile]; exact Bool.false_ne_true), if_pos hfile]
  have hclasspath : Ends (resolveClasspath job.input [] job.classpath) b
      (fun found b' => b' = b ∧ found = classpathFor job.input job.classpath
        ∧ firstMissing? b.files job.input job.classpath = none)
      (fun e b' => b' = b
        ∧ e.missingPath? = firstMissing? b.files job.input job.classpath) := by
    refine ⟨?_⟩
    rw [run_resolveClasspath]
    cases firstMissing? b.files job.input job.classpath with
    | some entry => exact ⟨rfl, rfl⟩
    | none => exact ⟨rfl, rfl, rfl⟩
  refine hclasspath.bind fun found b₁ hb₁ => ?_
  obtain ⟨rfl, rfl, hnone⟩ := hb₁
  refine ends_get_bind ?_
  cases b₁.files.readBytes job.input with
  | error fault => exact ends_throw ⟨rfl, hnone.symm⟩
  | ok bytes => exact ends_pure ⟨rfl, rfl, hfile, hnone⟩

/-- The entry that a job names as missing: it gets that far if no target is its input, and its
    input is there. -/
def missingPath? (t : FileTree) : Option Path :=
  if (job.targets.any fun target => t.samePlace job.input target.output) then none
  else if t.isFile job.input then firstMissing? t job.input job.classpath
  else none

/-- Run on the bench, the step makes requests for the archive with its class path, and no
    others. If an entry is missing, the step fails and names it; else no failure names one. -/
def Hands {α : Type} (archive : Path) (entries : List Path) (missing : Option Path)
    (act : Act Request α) (b : Bench Request) : Prop :=
  Ends act b (fun _ b' => b.Asked (For archive entries) b' ∧ missing = none)
    fun e b' => b.Asked (For archive entries) b' ∧ e.missingPath? = missing

/-- What goes before may have made such requests. -/
theorem Hands.after {α : Type} {archive : Path} {entries : List Path} {missing : Option Path}
    {act : Act Request α} {b b₁ : Bench Request} (h : Hands archive entries missing act b₁)
    (hb₁ : b.Asked (For archive entries) b₁) :
    Ends act b₁ (fun _ b' => b.Asked (For archive entries) b' ∧ missing = none)
      fun e b' => b.Asked (For archive entries) b' ∧ e.missingPath? = missing :=
  Ends.mono h (fun _ _ h => ⟨hb₁.trans h.1, h.2⟩) fun _ _ h => ⟨hb₁.trans h.1, h.2⟩

/-- A step after which nothing is missing any more. -/
theorem Hands.of_asks {α : Type} {archive : Path} {entries : List Path} {act : Act Request α}
    (h : Asks (For archive entries) act) (b : Bench Request) : Hands archive entries none act b :=
  (h.ends b).mono (fun _ _ h => ⟨h, rfl⟩) fun _ _ h => h

/-- A clean-up that makes no request and does not fail. -/
theorem Hands.orElseDo {α : Type} {archive : Path} {entries : List Path} {missing : Option Path}
    {act : Act Request α} {b : Bench Request} (h : Hands archive entries missing act b)
    {cleanup : Error → Act Request Unit} (hclean : ∀ e b₁, Ends (cleanup e) b₁
      (fun _ b' => b'.requests = b₁.requests) fun _ _ => False) :
    Hands archive entries missing (orElseDo act cleanup) b :=
  Ends.orElseDo h fun e b₁ hb₁ => (hclean e b₁).mono
    (fun _ _ h => ⟨hb₁.1.trans (.of_eq h), hb₁.2⟩) fun _ _ h => h

theorem hands_produce (b : Bench Request) :
    Hands job.input job.classpath
      (if b.files.isFile job.input then firstMissing? b.files job.input job.classpath else none)
      (r.produce catalog job force) b := by
  rw [Hands, produce_eq]
  refine (ends_setUp_classpath job b).mono (fun _ _ h => h)
    (fun e b' h => ⟨.of_eq (h.1 ▸ rfl), h.2⟩) |>.bind fun found b₁ hb₁ => ?_
  obtain ⟨rfl, hfound, hfile, hnone⟩ := hb₁
  rw [hfound, if_pos hfile, hnone]
  exact Hands.of_asks (r.asks_makeTargets catalog job found.2 force job.targets) b₁

/-- All requests of a job are for its input with its class path, and the job names the first
    missing entry if it gets that far. -/
theorem hands_runJob (b : Bench Request) :
    Hands job.input job.classpath (missingPath? job b.files) (r.runJob catalog job force) b := by
  rw [Hands, runJob, missingPath?]
  refine ends_get_bind ?_
  dsimp only
  cases hfind : job.targets.find? fun target => b.files.samePlace job.input target.output with
  | some target =>
      rw [if_pos (List.any_eq_true.2 ⟨target, List.mem_of_find?_eq_some hfind,
        List.find?_some hfind⟩)]
      exact ends_throw ⟨.of_eq rfl, rfl⟩
  | none =>
      have hnot : ¬ (job.targets.any fun target => b.files.samePlace job.input target.output)
          = true := by
        intro hany
        obtain ⟨target, htarget, hsame⟩ := List.any_eq_true.1 hany
        exact List.find?_eq_none.1 hfind target htarget hsame
      rw [if_neg hnot]
      refine (r.hands_produce catalog job force b).orElseDo fun e b₁ => ?_
      refine (ends_report _ _ b₁).bind fun _ b₂ hb₂ => ?_
      refine (ends_discardAll job.targets b₂).bind fun _ b₃ hb₃ => ?_
      have hinvalidate : Ends invalidateCache b₃ (fun _ b' => b'.requests = b₃.requests)
          fun _ _ => False := ⟨rfl⟩
      refine hinvalidate.bind fun _ b₄ hb₄ => ends_pure ?_
      exact hb₄.trans (hb₃.requests.trans hb₂.requests)

/-- Where all entries are there, none is missing. -/
theorem hands_run {b : Bench Request}
    (hexist : ∀ entry ∈ job.classpath, b.files.pathExists entry = true) :
    Hands job.input job.classpath none (r.run catalog job) b := by
  have hhands := r.hands_runJob catalog job false b
  rwa [missingPath?, firstMissing?_of_exist hexist, ite_self, ite_self] at hhands

-- ── In place ─────────────────────────────────────────────────────────────────

theorem moveAside_fails (archive dev : Path) (b : Bench Request) :
    Ends (moveAside archive dev) b (fun _ _ => True)
      (fun _ _ => ∃ fault, SourceRemapper.movedAside b.files archive dev = .error fault) := by
  have hrename : ∀ u, (if b.files.pathExists dev then b.files.removeFile dev else .ok b.files)
        = .ok u →
      Ends (do
          change archive (·.rename archive dev)
          let source := archive.text
          let dest := dev.text
          report .info s!":moved {source} to {dest}") { b with files := u } (fun _ _ => True)
        (fun _ _ => ∃ fault, SourceRemapper.movedAside b.files archive dev = .error fault) := by
    intro u hu
    rw [SourceRemapper.movedAside, hu]
    rw [change, bind_assoc]
    refine ends_get_bind ?_
    show Ends _ _ _ fun _ _ => ∃ fault, u.rename archive dev = .error fault
    cases u.rename archive dev with
    | ok m => exact ⟨trivial⟩
    | error fault => exact ends_throw ⟨fault, rfl⟩
  rw [moveAside]
  refine ends_get_bind ?_
  dsimp only
  by_cases hfound : b.files.pathExists dev = true
  · rw [if_pos hfound] at hrename ⊢
    rw [change, bind_assoc]
    refine ends_get_bind ?_
    cases hremove : b.files.removeFile dev with
    | ok u => exact ends_modify_bind (hrename u hremove)
    | error fault =>
        refine ends_throw ⟨fault, ?_⟩
        rw [SourceRemapper.movedAside, if_pos hfound, hremove]
        rfl
  · rw [if_neg hfound] at hrename ⊢
    exact hrename b.files rfl

/-- The entry that a run in place names as missing: it is looked for once the archive has been
    moved. -/
def missingAside? (t : FileTree) (archive dev : Path) (direction : Direction)
    (classpath : List Path) : Option Path :=
  if t.isFile archive then
    match SourceRemapper.movedAside t archive dev with
    | .ok moved => missingPath? (devJob archive dev direction classpath) moved
    | .error _ => none
  else none

theorem ends_moveBack_requests (archive dev : Path) (b : Bench Request) :
    Ends (moveBack archive dev) b (fun _ b' => b'.requests = b.requests) fun _ _ => False := by
  rw [moveBack]
  refine ends_get_bind ?_
  cases b.files.rename dev archive with
  | ok t => exact ⟨rfl⟩
  | error fault => exact ⟨rfl⟩

theorem asks_onlyOutcome {P : Request → Prop} (outcomes : List Outcome) :
    Asks P (onlyOutcome outcomes) := by
  rw [onlyOutcome]
  cases outcomes.getLast? with
  | some outcome => exact asks_pure outcome
  | none => exact asks_throw rfl

theorem hands_remapInPlace {archive dev : Path} (hdev : devPath archive r.settings.devSuffix = dev)
    (direction : Direction) (classpath : List Path) (b : Bench Request) :
    Hands dev classpath (missingAside? b.files archive dev direction classpath)
      (r.remapInPlace catalog archive direction classpath) b := by
  rw [Hands, remapInPlace, missingAside?, hdev]
  refine ends_get_bind ?_
  by_cases hfile : b.files.isFile archive = true
  swap
  · rw [if_pos (by simp only [Bool.eq_false_of_not_eq_true hfile]; rfl), if_neg hfile]
    exact ends_throw ⟨.of_eq rfl, rfl⟩
  rw [if_neg (by simp only [hfile]; exact Bool.false_ne_true), if_pos hfile]
  have hasks : Asks (For dev classpath) (moveAside archive dev) := asks_moveAside archive dev
  refine (((ends_moveAside archive dev b).and (moveAside_fails archive dev b)).and
    (hasks.ends b)).mono (fun _ _ h => h) (fun e b' h => ?_) |>.bind fun _ b₁ hb₁ => ?_
  · obtain ⟨⟨-, fault, hfault⟩, hasked, hnone⟩ := h
    rw [hfault]
    exact ⟨hasked, hnone⟩
  obtain ⟨⟨⟨moved, hmoved, hrests⟩, -⟩, hasked⟩ := hb₁
  rw [hmoved, ← show b₁.files = moved from hrests.files]
  have hjob := (r.hands_runJob catalog (devJob archive dev direction classpath) true b₁).orElseDo
    fun _ b₂ => (ends_moveBack_requests archive dev b₂)
  refine (hjob.after hasked).bind fun outcomes b₂ hb₂ => ?_
  obtain ⟨hasked₂, hnone⟩ := hb₂
  dsimp only
  rw [hnone]
  exact (Hands.of_asks (asks_onlyOutcome outcomes) b₂).after hasked₂

-- ── Plain trees ──────────────────────────────────────────────────────────────

section Plain

variable {t moved : FileTree} {archive dev : Path} {content : Content}
  (haside : Aside t moved archive dev content) (hbeside : Beside archive dev)
include haside hbeside

/-- In a plain tree, what was there is there once an archive has been moved, but for the archive
    itself. -/
theorem pathExists_moved (h : t.Plain) {entry : Path} (hthere : t.pathExists entry = true) :
    moved.pathExists entry = !(entry.place == archive.place) := by
  have hplain := haside.keeping.plain
  obtain ⟨node, hstat⟩ : ∃ node, t.stat entry = .ok node := by
    rw [FileTree.pathExists] at hthere
    cases hstat : t.stat entry with
    | ok node => exact ⟨node, rfl⟩
    | error fault => rw [hstat] at hthere; cases hthere
  obtain ⟨loc, hloc, hat⟩ := FileTree.stat_eq_ok hstat
  obtain ⟨rfl, -⟩ := h.resolve_eq_ok hloc
  have hleads := h.resolve_keeps hplain haside.keeping.dirs hloc
  have hmoved := haside.at? entry.place
  rw [FileTree.pathExists, FileTree.stat, hleads]
  simp only [bind, Except.bind]
  by_cases harchive : entry.place = archive.place
  · rw [if_neg (harchive ▸ hbeside.place_ne), if_pos harchive] at hmoved
    rw [hmoved, harchive, beq_self_eq_true]
    rfl
  · rw [beq_eq_false_iff_ne.2 harchive]
    by_cases hdev : entry.place = dev.place
    · rw [if_pos hdev] at hmoved
      rw [hmoved]
      rfl
    · rw [if_neg hdev, if_neg harchive, hat] at hmoved
      rw [hmoved]
      rfl

/-- In a plain tree, an archive that has been moved is at its dev path. -/
theorem isFile_dev : moved.isFile dev = true := by
  obtain ⟨u, htests⟩ := haside.tests
  obtain ⟨_, hlook⟩ := htests.there
  obtain ⟨other, hother⟩ := hbeside.file
  have hat : moved.at? dev.place = some (.file content) := by rw [haside.at?, if_pos rfl]
  rw [FileTree.isFile, haside.keeping.plain.stat_of_entryAt haside.dest
    (FileTree.endsInSlash_of_getLast? hother)
    ((FileTree.lookUp_of_lookUp hlook).trans (congrArg _ hat))]

/-- In a plain tree, an archive that has been moved is not the output of its own job. -/
theorem samePlace_dev {kept dropped : List String} {name : String}
    (hcut : archive.Cut kept dropped name) : moved.samePlace dev archive = false := by
  have hplain := haside.keeping.plain
  obtain ⟨content', hstat⟩ := FileTree.stat_of_isFile (isFile_dev haside hbeside)
  obtain ⟨hleads, hat⟩ := hplain.stat_file hstat
  have hdev : moved.identity? dev = some dev.place := by
    rw [FileTree.identity?, FileTree.canonicalize, hleads]
    simp only [bind, Except.bind, hat]
  have hnone : moved.at? archive.place = none := by
    rw [haside.at?, if_neg hbeside.place_ne, if_pos rfl]
  have harchive : ∀ loc, moved.identity? archive = some loc → ∃ dir, loc = dir ++ [.ofText name] := by
    intro loc hloc
    rw [FileTree.identity?] at hloc
    cases hcanonical : moved.canonicalize archive with
    | ok found =>
        -- nothing is there any more
        obtain ⟨there, hthere, hfound⟩ := Outcome.bind_eq_ok.1 hcanonical
        rw [(hplain.resolve_eq_ok hthere).1, hnone] at hfound
        cases hfound
    | error fault =>
        rw [hcanonical, hcut.fileName, hcut.parent] at hloc
        simp only [bind, Option.bind] at hloc
        split at hloc
        · exact ⟨_, (Option.some.inj hloc).symm⟩
        · cases hloc
  rw [FileTree.samePlace, hdev]
  cases hidentity : moved.identity? archive with
  | none =>
      refine Bool.eq_false_iff.2 fun hsame => hbeside.place_ne ?_
      exact (Path.place_of_sameAs hsame).symm
  | some loc =>
      obtain ⟨dir, rfl⟩ := harchive loc hidentity
      obtain ⟨dir', name', other, harchive', hdev', hlonger⟩ := hbeside.names
      refine beq_eq_false_iff_ne.2 fun heq => ?_
      -- the names at the ends are of two lengths
      have hplace := Path.place_of_concat (hcut.steps_eq.trans (List.append_assoc _ _ _).symm)
      rw [harchive'] at hplace
      rw [hdev'] at heq
      rw [(Name.concat_ofText_inj hplace).2, (Name.concat_ofText_inj heq).2] at hlonger
      exact Nat.lt_irrefl _ hlonger

end Plain

theorem find?_congr {α : Type} {p q : α → Bool} {items : List α}
    (h : ∀ item ∈ items, p item = q item) : items.find? p = items.find? q := by
  induction items with
  | nil => rfl
  | cons item later ih =>
      rw [List.find?_cons, List.find?_cons, h item List.mem_cons_self,
        ih fun other hother => h other (List.mem_cons_of_mem item hother)]

/-- In a plain tree a run in place misses the first entry that leads to the archive, and no
    other. -/
theorem missingAside?_plain {t moved : FileTree} (h : t.Plain) {settings : Settings}
    (hvalid : settings.validate = .ok ()) {archive dev : Path}
    (hdev : devPath archive settings.devSuffix = dev) (hfile : t.isFile archive = true)
    (hmoved : SourceRemapper.movedAside t archive dev = .ok moved) {classpath : List Path}
    (hexist : ∀ entry ∈ classpath, t.pathExists entry = true) (direction : Direction) :
    missingAside? t archive dev direction classpath
      = classpath.find? fun entry => entry.place == archive.place := by
  obtain ⟨content, hstat⟩ := FileTree.stat_of_isFile hfile
  have hname := FileTree.namesFile_of_stat hstat
  obtain ⟨kept, dropped, name, hcut⟩ := Path.exists_cut hname
    (FileTree.relative_of_resolve hname (h.stat_file hstat).1)
  have hbeside : Beside archive dev := hdev ▸ beside_devPath hcut hvalid
  have haside := aside_of_movedAside h hstat hbeside hmoved
  rw [missingAside?, if_pos hfile, hmoved]
  dsimp only
  rw [missingPath?, devJob, List.any_cons, List.any_nil, Bool.or_false]
  rw [samePlace_dev haside hbeside hcut, if_neg Bool.false_ne_true,
    if_pos (isFile_dev haside hbeside), firstMissing?]
  refine find?_congr fun entry hentry => ?_
  rw [pathExists_moved haside hbeside h (hexist entry hentry), Bool.not_not]
  by_cases hplace : entry.place = archive.place
  · -- an entry at the archive is not at the dev path
    have hother : entry.sameAs dev = false := Bool.eq_false_iff.2 fun hsame =>
      hbeside.place_ne (hplace.symm.trans (Path.place_of_sameAs hsame))
    rw [hother, Bool.not_false, Bool.true_and]
  · rw [beq_eq_false_iff_ne.2 hplace, Bool.and_false]

-- ── Runs ─────────────────────────────────────────────────────────────────────

theorem classpathFor_of_others {archive : Path} {entries : List Path}
    (h : ∀ entry ∈ entries, entry.sameAs archive = false) :
    classpathFor archive entries = entries.eraseDupsBy Path.sameAs := by
  have hall : (entries.filter fun entry => !entry.sameAs archive) = entries :=
    List.filter_eq_self.2 fun entry hentry => by rw [h entry hentry, Bool.not_false]
  rw [classpathFor, hall]

/-- An archive and a library. -/
def withLibrary : Bench Request :=
  .ofNodes [(["in"], .file (.raw [1])), (["d"], .dir), (["d", "lib"], .file (.raw [2]))]

/-- The entry is there at the start, and remapping in place names it as missing. -/
def LosesEntry (nodes : List (Location × Node)) (entry : Path) : Prop :=
  (Bench.ofNodes nodes).files.pathExists entry = true
    ∧ ((({ tool := .labelling, settings := {} } : Remapper).remapInPlace twoLabels ⟨"in"⟩ ⟨"a", "b"⟩
        [entry]).run.run (Bench.ofNodes nodes)).1 = .error (.missingClasspath entry)

end Remapper

end Remap

end Nomenclator
