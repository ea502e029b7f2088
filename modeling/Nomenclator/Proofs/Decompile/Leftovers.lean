import Nomenclator.Proofs.Decompile.Failure
import Nomenclator.Proofs.Files.Plain

/-! # Failing jobs — what they leave behind

    A job that fails should leave no output: no archive of sources, no file in which
    that archive was being written, and no line table.  It can fail (`Fails`)

    * while it makes room for its outputs and reads the classes (`PreparesCleanly`);
    * while the pool works: then the file for the sources is removed, which always
      succeeds (`isFile_closed`), and older outputs are the question
      (`WorksCleanly`);
    * while it puts its outputs in place (`PlacesCleanly`).

    Where files are in the end depends neither on what the decompiler makes of the
    classes nor on the order of the events in the pool.  So the job and the tree
    decide whether every failure is clean: `decompileWith_leaves_nothing_iff`.  In
    plain trees the second part holds by itself, if no path goes up
    (`worksCleanly_of_plain`).  A job whose channel would be too large crashes before its
    pool starts; nothing else does (`Fails.of_noChannel`). -/

namespace Nomenclator.Decompile

open Files (Path FileTree IoFault ArchiveEntry Location Node)

-- ── Outputs ──────────────────────────────────────────────────────────────────

namespace Job

/-- The outputs of a job. -/
def results (job : Job) : List Path := job.sources :: job.lineTable.toList

/-- No output is a file, and neither is the place where the sources are written at first. -/
def LeavesNothing (job : Job) (t : FileTree) : Prop :=
  ∀ p ∈ Decompiler.partialPath job.sources :: job.results, t.isFile p = false

/-- Puts outputs in place: the outcome, and the tree at its end. -/
def placed (job : Job) (entries : List ArchiveEntry) (table : LineTable) (t : FileTree) :
    Except (Path × IoFault) Unit × FileTree :=
  match t.write (Decompiler.partialPath job.sources) (.archive entries) with
  | .error fault => (.error (Decompiler.partialPath job.sources, fault), t)
  | .ok t =>
    match t.rename (Decompiler.partialPath job.sources) job.sources with
    | .error fault => (.error (job.sources, fault), t)
    | .ok t =>
      match job.lineTable with
      | none => (.ok (), t)
      | some dest => table.saveFile t dest

/-- A job that fails while it prepares leaves no output. -/
def PreparesCleanly (job : Job) (desk : Desk) : Prop :=
  ∀ e after, (Decompiler.prepare job).run.run desk = (.error e, after) →
    job.LeavesNothing after.files

/-- A job whose pool fails, as it can if there are classes or the file for the sources cannot be
    created, leaves no output when it has removed that file. -/
def WorksCleanly (job : Job) (desk : Desk) : Prop :=
  ∀ classes after, (Decompiler.prepare job).run.run desk = (.ok classes, after) →
    (classes.size ≠ 0 ∨ job.created after.files ≠ .ok ()) →
    ∀ p ∈ job.results, (job.closed (job.opened after.files)).isFile p = false

/-- The end of a rehearsal, in which an empty archive and an empty table are put in place. -/
def rehearsed (job : Job) (t : FileTree) : Except (Path × IoFault) Unit × FileTree :=
  job.placed [] {} (job.opened t)

/-- A job that fails to put its outputs in place leaves none; a rehearsal tells whether it can. -/
def PlacesCleanly (job : Job) (desk : Desk) : Prop :=
  ∀ classes after, (Decompiler.prepare job).run.run desk = (.ok classes, after) →
    job.created after.files = .ok () → (job.rehearsed after.files).1.isOk = false →
    job.LeavesNothing (job.rehearsed after.files).2

/-- Wherever the job fails with these settings, it leaves no output.  It gets to its pool and its
    outputs when it can have its channel. -/
structure Covered (settings : Settings) (job : Job) (desk : Desk) : Prop where
  preparing : job.PreparesCleanly desk
  working : settings.queueCapacity ≤ channelLimit → job.WorksCleanly desk
  placing : settings.queueCapacity ≤ channelLimit → job.PlacesCleanly desk

instance (job : Job) (t : FileTree) : Decidable (job.LeavesNothing t) :=
  inferInstanceAs (Decidable (∀ p ∈ Decompiler.partialPath job.sources :: job.results, _))

instance (job : Job) (desk : Desk) : Decidable (job.PreparesCleanly desk) :=
  match h : (Decompiler.prepare job).run.run desk with
  | (.ok _, _) => .isTrue fun _ _ h' => nomatch h.symm.trans h'
  | (.error e, after) =>
    decidable_of_iff (job.LeavesNothing after.files)
      ⟨fun hclean _ _ h' => (Prod.mk.inj (h.symm.trans h')).2 ▸ hclean,
        fun hclean => hclean e after h⟩

instance (job : Job) (desk : Desk) : Decidable (job.WorksCleanly desk) :=
  match h : (Decompiler.prepare job).run.run desk with
  | (.error _, _) => .isTrue fun _ _ h' => nomatch h.symm.trans h'
  | (.ok classes, after) =>
    decidable_of_iff ((classes.size ≠ 0 ∨ job.created after.files ≠ .ok ()) →
        ∀ p ∈ job.results, (job.closed (job.opened after.files)).isFile p = false)
      ⟨fun hclean _ _ h' => by cases h.symm.trans h'; exact hclean,
        fun hclean => hclean classes after h⟩

instance (job : Job) (desk : Desk) : Decidable (job.PlacesCleanly desk) :=
  match h : (Decompiler.prepare job).run.run desk with
  | (.error _, _) => .isTrue fun _ _ h' => nomatch h.symm.trans h'
  | (.ok classes, after) =>
    decidable_of_iff (job.created after.files = .ok () →
        (job.rehearsed after.files).1.isOk = false →
        job.LeavesNothing (job.rehearsed after.files).2)
      ⟨fun hclean _ _ h' => by cases h.symm.trans h'; exact hclean,
        fun hclean => hclean classes after h⟩

instance (settings : Settings) (job : Job) (desk : Desk) : Decidable (job.Covered settings desk) :=
  decidable_of_iff (job.PreparesCleanly desk
      ∧ (settings.queueCapacity ≤ channelLimit → job.WorksCleanly desk)
      ∧ (settings.queueCapacity ≤ channelLimit → job.PlacesCleanly desk))
    ⟨fun ⟨hprepares, hworks, hplaces⟩ => ⟨hprepares, hworks, hplaces⟩,
      fun h => ⟨h.preparing, h.working, h.placing⟩⟩

end Job

-- ── Contents do not matter ───────────────────────────────────────────────────

/-- Two ends that differ in the contents of files at most. -/
def EndsAlike (x y : Except (Path × IoFault) Unit × FileTree) : Prop :=
  x.1 = y.1 ∧ FileTree.Alike (fun _ _ => True) x.2 y.2

variable {t u : FileTree}

/-- Writes a text to the temporary file of a path, which then takes its place. -/
def swapIn (dest : Path) (text : String) (t : FileTree) : Except (Path × IoFault) Unit × FileTree :=
  match t.writeText (temporaryPath dest) text with
  | .error fault => (.error (temporaryPath dest, fault), t)
  | .ok t =>
    match t.rename (temporaryPath dest) dest with
    | .error fault => (.error (dest, fault), t)
    | .ok t => (.ok (), t)

theorem swapIn_alike (h : FileTree.Alike (fun _ _ => True) t u) (dest : Path)
    (text text' : String) : EndsAlike (swapIn dest text t) (swapIn dest text' u) := by
  unfold swapIn FileTree.writeText
  generalize Files.Content.raw (Text.encodeUtf8 text.toList) = content
  generalize Files.Content.raw (Text.encodeUtf8 text'.toList) = content'
  have hwrite : Outcome.Agree (FileTree.Alike fun _ _ => True)
      (t.write (temporaryPath dest) content) (u.write (temporaryPath dest) content') :=
    h.write _ trivial
  generalize t.write (temporaryPath dest) content = written at hwrite
  generalize u.write (temporaryPath dest) content' = written' at hwrite
  cases hwrite with
  | error f => exact ⟨rfl, h⟩
  | @ok v w hvw =>
      have hrename := hvw.rename (temporaryPath dest) dest
      dsimp only
      generalize v.rename (temporaryPath dest) dest = moved at hrename
      generalize w.rename (temporaryPath dest) dest = moved' at hrename
      cases hrename with
      | error f => exact ⟨rfl, hvw⟩
      | ok hmoved => exact ⟨rfl, hmoved⟩

/-- A table is swapped in when its directory is there. -/
theorem saveFile_eq (table : LineTable) (dest : Path) (t : FileTree) :
    table.saveFile t dest
      = match dest.parent? with
        | none => swapIn dest table.render t
        | some parent =>
          match t.createDirAll parent with
          | (.error fault, t) => (.error (parent, fault), t)
          | (.ok (), t) => swapIn dest table.render t := by
  unfold LineTable.saveFile swapIn
  cases dest.parent? with
  | none =>
      cases hwrite : t.writeText (temporaryPath dest) table.render with
      | error f => simp only [hwrite]
      | ok v => cases hrename : v.rename (temporaryPath dest) dest <;> simp only [hwrite, hrename]
  | some parent =>
      cases hmade : t.createDirAll parent with
      | mk result u =>
      cases result with
      | error f => simp only [hmade, Except.mapError]
      | ok _ =>
          cases hwrite : u.writeText (temporaryPath dest) table.render with
          | error f => simp only [hmade, Except.mapError, hwrite]
          | ok v =>
              cases hrename : v.rename (temporaryPath dest) dest <;>
                simp only [hmade, Except.mapError, hwrite, hrename]

/-- Whether a table can be written, and where files are then, does not depend on what is in it. -/
theorem saveFile_alike (h : FileTree.Alike (fun _ _ => True) t u) (dest : Path)
    (table table' : LineTable) : EndsAlike (table.saveFile t dest) (table'.saveFile u dest) := by
  rw [saveFile_eq, saveFile_eq]
  cases dest.parent? with
  | none => exact swapIn_alike h dest _ _
  | some parent =>
      dsimp only
      have hmade := h.createDirAll parent
      generalize t.createDirAll parent = made at hmade
      generalize u.createDirAll parent = made' at hmade
      obtain ⟨result, v⟩ := made
      obtain ⟨result', w⟩ := made'
      obtain ⟨rfl, hvw⟩ : result = result' ∧ FileTree.Alike _ v w := hmade
      cases result with
      | error f => exact ⟨rfl, hvw⟩
      | ok _ => exact swapIn_alike hvw dest _ _

/-- The same for all outputs. -/
theorem Job.placed_alike (job : Job) (entries entries' : List ArchiveEntry)
    (table table' : LineTable) (t : FileTree) :
    EndsAlike (job.placed entries table t) (job.placed entries' table' t) := by
  have hrefl := FileTree.Alike.refl (R := fun _ _ => True) (fun _ => trivial) t
  rw [placed, placed]
  have hwrite : Outcome.Agree (FileTree.Alike fun _ _ => True)
      (t.write (Decompiler.partialPath job.sources) (.archive entries))
      (t.write (Decompiler.partialPath job.sources) (.archive entries')) :=
    hrefl.write _ trivial
  generalize t.write (Decompiler.partialPath job.sources) (.archive entries) = written at hwrite
  generalize t.write (Decompiler.partialPath job.sources) (.archive entries') = written' at hwrite
  cases hwrite with
  | error f => exact ⟨rfl, hrefl⟩
  | @ok v w hvw =>
      dsimp only
      have hrename := hvw.rename (Decompiler.partialPath job.sources) job.sources
      generalize v.rename (Decompiler.partialPath job.sources) job.sources = moved at hrename
      generalize w.rename (Decompiler.partialPath job.sources) job.sources = moved' at hrename
      cases hrename with
      | error f => exact ⟨rfl, hvw⟩
      | ok hmoved =>
          dsimp only
          cases job.lineTable with
          | none => exact ⟨rfl, hmoved⟩
          | some dest => exact saveFile_alike hmoved dest table table'

/-- A tree leaves as much as another of its shape. -/
theorem Job.LeavesNothing.congr {job : Job} (h : FileTree.Alike (fun _ _ => True) t u) :
    job.LeavesNothing t ↔ job.LeavesNothing u :=
  forall₂_congr fun p _ => by rw [h.isFile p]

/-- The file for the sources is gone when it has been removed, whatever was there. -/
theorem Job.isFile_closed (job : Job) (t : FileTree) :
    (job.closed t).isFile (Decompiler.partialPath job.sources) = false := by
  rw [closed]
  cases hremove : t.removeFile (Decompiler.partialPath job.sources) with
  | ok t' => exact FileTree.isFile_of_removeFile hremove
  | error f =>
      refine Bool.eq_false_iff.2 fun hfile => ?_
      obtain ⟨t', ht'⟩ := FileTree.removeFile_of_isFile hfile
      cases hremove.symm.trans ht'

-- ── Pools ────────────────────────────────────────────────────────────────────

variable {plan : Plan} {p p' : Pool} {e : Event} {events : List Event}

/-- A schedule: a way to bring every pool to its end. -/
def Schedules (runPool : Plan → Pool) : Prop :=
  ∀ plan : Plan, 0 < plan.threads → 0 < plan.capacity →
    (∃ events, (Pool.initial plan).follow plan events = some (runPool plan))
      ∧ (runPool plan).ended = true

/-- Has the writer opened the archive, and not stopped since? -/
def WriterState.isOpen : WriterState → Bool
  | .ready .. => true
  | .finished .. => true
  | _ => false

/-- The writer opens an archive that could be created. -/
theorem Next.created (hnext : Next plan p e p')
    (h : p.writer.isOpen = true → plan.created = .ok ()) (hopen : p'.writer.isOpen = true) :
    plan.created = .ok () := by
  cases hnext with
  | opened _ hcreated => exact hcreated
  | notCreated | notWritten => exact nomatch hopen
  | wrote hw | closed hw => exact h (by rw [hw]; rfl)
  | recorded =>
      obtain ⟨lines, hlines⟩ := exists_recordLines plan p _ _
      rw [hlines] at hopen
      exact h hopen
  | took | failed | skipped | returned | queued | refused | sent | joined | joinedCancelled
  | cancelled => exact h hopen

theorem created_of_follow (h : p.writer.isOpen = true → plan.created = .ok ())
    (hrun : p.follow plan events = some p') (hopen : p'.writer.isOpen = true) :
    plan.created = .ok () := by
  induction events generalizing p with
  | nil =>
      obtain rfl := Option.some.inj hrun
      exact h hopen
  | cons e later ih =>
      rw [Pool.follow_cons] at hrun
      obtain ⟨next, hstep, hlater⟩ := Option.bind_eq_some_iff.1 hrun
      exact ih ((next_of_step hstep).created h) hlater

/-- Only a pool whose archive could be created ends well. -/
theorem created_of_outcome (hrun : (Pool.initial plan).follow plan events = some p)
    {result : SourceWriter × Nat × Nat} (h : p.outcome = .ok result) : plan.created = .ok () := by
  have hstart : (Pool.initial plan).writer.isOpen ≠ true := Bool.noConfusion
  refine created_of_follow (fun hopen => absurd hopen hstart) hrun ?_
  rw [Pool.outcome] at h
  cases hw : p.writer with
  | ready | finished => rfl
  | opening | broken =>
      rw [hw] at h
      cases hf : p.failure with
      | none => rw [hf] at h; cases h
      | some error => rw [hf] at h; cases error <;> cases h

/-- Calls that come to nothing let a pool end well. -/
theorem outcome_of_nothing (hcreated : plan.created = .ok ())
    (hanswers : ∀ c ∈ plan.classes, plan.answer c = .nothing)
    (hrun : (Pool.initial plan).follow plan events = some p) (hended : p.ended = true) :
    ∃ w sources bytes, p.outcome = .ok (w, sources, bytes) := by
  have hanswer : ∀ i c, plan.classes[i]? = some c → plan.answer c = .nothing :=
    fun i c hc => hanswers c (List.mem_of_getElem? hc)
  obtain ⟨past, hsound⟩ := (sound_initial plan).follow hrun
  have hwriter : p.writer.isBroken = false := by
    have htells := hsound.writer
    cases hw : p.writer with
    | opening | ready | finished => rfl
    | broken error =>
        rw [hw] at htells
        cases htells with
        | notCreated hc => exact nomatch hcreated.symm.trans hc
        | notWritten hgenuine =>
            obtain ⟨source, hsource, -⟩ :=
              hgenuine.source _ (List.mem_append_right _ List.mem_cons_self)
            obtain ⟨c, hc, hsource⟩ := Option.bind_eq_some_iff.1 hsource
            rw [hanswer _ c hc] at hsource
            exact nomatch hsource
  refine outcome_of_no_failure hsound (traced_of_follow hrun) hended ?_ hwriter
  cases hfailure : p.failure with
  | none => rfl
  | some error =>
      obtain ⟨i, -, herror⟩ := hsound.error_of_failure hfailure hwriter
      obtain ⟨c, hc, herror⟩ := Option.bind_eq_some_iff.1 herror
      rw [hanswer _ c hc] at herror
      exact nomatch herror

/-- A pool with a failure does not end well. -/
theorem Pool.exists_error_of_failure (h : p.failure.isSome = true) :
    ∃ error, p.outcome = .error error := by
  obtain ⟨error, hfailure⟩ := Option.isSome_iff_exists.1 h
  rw [outcome, hfailure]
  cases p.writer <;> cases error <;> exact ⟨_, rfl⟩

/-- A pool does not want for a channel. -/
theorem Sound.outcome_ne_noChannel {past : History} (h : Sound plan past p)
    (hcreated : plan.created ≠ .error .noChannel) : p.outcome ≠ .error .noChannel := by
  have hfailure : p.failure ≠ some .noChannel := by
    intro hfailure
    obtain ⟨i, hi⟩ := h.failure _ hfailure
    rcases h.error_of_ended hi with herror | ⟨hclosed, -⟩
    · obtain ⟨c, -, ⟨chain, -, hchain⟩ | ⟨-, hcrash⟩⟩ := Plan.error?_cases herror
      · cases hchain
      · cases hcrash
    · cases hclosed
  have hwriter : p.writer ≠ .broken .noChannel := by
    intro hw
    have htells := h.writer
    rw [hw] at htells
    cases htells with
    | notCreated hc => exact hcreated hc
  intro houtcome
  rw [Pool.outcome] at houtcome
  split at houtcome
  · next hw => cases houtcome; exact hwriter hw
  · next hw => cases houtcome; exact hwriter hw
  · next hf _ => cases houtcome; exact hfailure hf
  · split at houtcome <;> cases houtcome
  · cases houtcome

-- ── Steps that do not crash ──────────────────────────────────────────────────

theorem Job.created_ne_noChannel (job : Job) (t : FileTree) :
    job.created t ≠ .error .noChannel := by
  intro h
  rw [created] at h
  split at h <;> cases h

namespace Decompiler

section Crashes

variable {α β : Type} {act : Act α}

/-- The step does not crash for want of a channel. -/
def Returns (act : Act α) : Prop :=
  ∀ desk after, act.run.run desk ≠ (.error .noChannel, after)

theorem Returns.bind {next : α → Act β} (hact : Returns act) (hnext : ∀ a, Returns (next a)) :
    Returns (act >>= next) := by
  intro desk after h
  cases hrun : act.run.run desk with
  | mk result ready =>
  cases result with
  | error e =>
      rw [Outcome.run_bind_of_error hrun] at h
      cases h
      exact hact desk after hrun
  | ok a =>
      rw [Outcome.run_bind_of_ok hrun] at h
      exact hnext a ready after h

theorem returns_of_ok (h : ∀ desk, ((act.run.run desk).1).isOk = true) : Returns act := by
  intro desk after hcrash
  have hok := h desk
  rw [hcrash] at hok
  cases hok

theorem returns_throw {e : Error} (h : e ≠ .noChannel) : Returns (throw e : Act α) := by
  intro desk after hcrash
  cases hcrash
  exact h rfl

theorem returns_get : Returns (get : Act Desk) := returns_of_ok fun _ => rfl

theorem returns_settle (result : Except (Path × IoFault) Unit) (files : FileTree) :
    Returns (settle result files) := by
  refine (returns_of_ok fun _ => rfl).bind fun _ => ?_
  cases result with
  | ok _ => exact returns_of_ok fun _ => rfl
  | error found => exact returns_throw nofun

theorem returns_change (p : Path) (operation : FileTree → Except IoFault FileTree) :
    Returns (change p operation) := by
  refine returns_get.bind fun desk => ?_
  cases operation desk.files with
  | ok files => exact returns_of_ok fun _ => rfl
  | error fault => exact returns_throw nofun

theorem returns_removeStale (p : Path) : Returns (removeStale p) := by
  refine returns_get.bind fun desk => ?_
  split
  · exact returns_of_ok fun _ => rfl
  · exact returns_of_ok fun _ => rfl
  · exact returns_throw nofun

theorem returns_readClasses (p : Path) : Returns (readClasses p) := by
  refine returns_get.bind fun desk => ?_
  split
  · exact returns_throw nofun
  · split
    · split
      · exact returns_throw nofun
      · exact returns_throw nofun
      · exact returns_throw nofun
      · exact returns_of_ok fun _ => rfl
    · exact returns_throw nofun

/-- The end of a preparation: the directory of the sources is made, and the classes are read. -/
theorem returns_withParent (job : Job) : Returns (match job.sources.parent? with
    | some parent => do
      let (result, files) := (← get).files.createDirAll parent
      settle (result.mapError fun fault => (parent, fault)) files
      readClasses job.input
    | none => readClasses job.input) := by
  cases job.sources.parent? with
  | none => exact returns_readClasses _
  | some parent =>
      exact returns_get.bind fun desk => (returns_settle _ _).bind fun _ => returns_readClasses _

theorem returns_prepare (job : Job) : Returns (prepare job) := by
  refine returns_get.bind fun desk => ?_
  dsimp only
  split
  · intro desk after hcrash
    cases hcrash
  · refine (returns_removeStale _).bind fun _ => ?_
    cases job.lineTable with
    | none => exact returns_withParent job
    | some dest => exact (returns_removeStale _).bind fun _ => returns_withParent job

theorem returns_commit (job : Job) (count : Nat) (pool : Pool) (w : SourceWriter)
    (sources bytes : Nat) : Returns (commit job count pool w sources bytes) := by
  refine (returns_change _ _).bind fun _ => (returns_change _ _).bind fun _ => ?_
  cases job.lineTable with
  | none => exact returns_of_ok fun _ => rfl
  | some dest =>
      exact returns_get.bind fun desk => (returns_settle _ _).bind fun _ => returns_of_ok fun _ => rfl

end Crashes

-- ── Putting outputs in place ─────────────────────────────────────────────────

variable {d : Decompiler} {job : Job} {desk after : Desk} {classes : SortedMap String Bytes}
  {runPool : Plan → Pool}

theorem run_change_of_error {p : Path} {operation : FileTree → Except IoFault FileTree}
    {fault : IoFault} (h : operation desk.files = .error fault) :
    (change p operation).run.run desk = (.error (.io p fault), desk) := by
  rw [change, Outcome.run_bind_of_ok (run_get desk), h]
  rfl

/-- Putting outputs in place ends as it does in the tree. -/
theorem run_commit_eq (job : Job) (count : Nat) (pool : Pool) (w : SourceWriter)
    (sources bytes : Nat) (desk : Desk) :
    let ending := (commit job count pool w sources bytes).run.run desk
    ending.1.isOk = (job.placed w.builder.entries pool.lines desk.files).1.isOk
      ∧ ending.2.files = (job.placed w.builder.entries pool.lines desk.files).2 := by
  rw [commit, Job.placed]
  dsimp only
  cases hwrite : desk.files.write (partialPath job.sources) (.archive w.builder.entries) with
  | error f =>
      have hfails : (change (partialPath job.sources) fun t =>
          t.write (partialPath job.sources) (.archive w.builder.entries)).run.run desk
            = (.error (.io (partialPath job.sources) f), desk) := run_change_of_error hwrite
      rw [Outcome.run_bind_of_error hfails]
      exact ⟨rfl, rfl⟩
  | ok t₁ =>
      have hwritten : (change (partialPath job.sources) fun t =>
          t.write (partialPath job.sources) (.archive w.builder.entries)).run.run desk
            = (.ok (), { desk with files := t₁ }) := run_change hwrite
      rw [Outcome.run_bind_of_ok hwritten]
      dsimp only
      cases hrename : t₁.rename (partialPath job.sources) job.sources with
      | error f =>
          have hfails : (change job.sources fun t =>
              t.rename (partialPath job.sources) job.sources).run.run { desk with files := t₁ }
                = (.error (.io job.sources f), { desk with files := t₁ }) :=
            run_change_of_error hrename
          rw [Outcome.run_bind_of_error hfails]
          exact ⟨rfl, rfl⟩
      | ok t₂ =>
          have hmoved : (change job.sources fun t =>
              t.rename (partialPath job.sources) job.sources).run.run { desk with files := t₁ }
                = (.ok (), { desk with files := t₂ }) := run_change hrename
          rw [Outcome.run_bind_of_ok hmoved]
          dsimp only
          cases job.lineTable with
          | none => exact ⟨rfl, rfl⟩
          | some dest =>
              dsimp only
              rw [Outcome.run_bind_of_ok (run_get _)]
              dsimp only
              generalize pool.lines.saveFile t₂ dest = saved
              obtain ⟨result, t₃⟩ := saved
              cases result with
              | error f => exact ⟨rfl, rfl⟩
              | ok _ => exact ⟨rfl, rfl⟩

/-- A rehearsal tells how putting outputs in place ends, and what it leaves. -/
theorem run_commit_rehearsed (job : Job) (count : Nat) (pool : Pool) (w : SourceWriter)
    (sources bytes : Nat) (t : FileTree) (log : Log) :
    let ending := (commit job count pool w sources bytes).run.run { files := job.opened t, log }
    ending.1.isOk = (job.rehearsed t).1.isOk
      ∧ (job.LeavesNothing ending.2.files ↔ job.LeavesNothing (job.rehearsed t).2) := by
  intro ending
  obtain ⟨hok, hfiles⟩ :=
    run_commit_eq job count pool w sources bytes { files := job.opened t, log }
  obtain ⟨hsame, halike⟩ :=
    job.placed_alike [] w.builder.entries {} pool.lines (job.opened t)
  rw [Job.rehearsed, hsame, Job.LeavesNothing.congr halike]
  exact ⟨hok, by rw [hfiles]⟩

-- ── Preparing ────────────────────────────────────────────────────────────────

theorem run_removeStale_of_error {p : Path} {fault : IoFault}
    (h : withoutStale desk.files p = .error fault) :
    (removeStale p).run.run desk = (.error (.io p fault), desk) := by
  rw [removeStale, Outcome.run_bind_of_ok (run_get desk)]
  rw [withoutStale] at h
  cases hremove : desk.files.removeFile p with
  | ok t => rw [hremove] at h; cases h
  | error f =>
      rw [hremove] at h
      cases f with
      | notFound => cases h
      | _ => obtain rfl := Except.error.inj h; rfl

/-- Reading the classes after the directory of the sources is made leaves the tree with it. -/
theorem withParent_of_readClasses (desk : Desk)
    (h : (match job.sources.parent? with
      | some parent => do
        let desk ← get
        match desk.files.createDirAll parent with
        | (result, files) => do
          settle (result.mapError fun fault => (parent, fault)) files
          readClasses job.input
      | none => readClasses job.input : Act _).run.run desk = (.ok classes, after)) :
    withParent desk.files job.sources = .ok after.files := by
  have hread : ∀ {desk : Desk}, (readClasses job.input).run.run desk = (.ok classes, after) →
      after = desk := by
    intro desk hread
    rw [run_readClasses] at hread
    exact (Prod.mk.inj hread).2.symm
  rw [withParent]
  cases hp : job.sources.parent? with
  | none =>
      rw [hp] at h
      rw [hread h]
  | some parent =>
      rw [hp] at h
      dsimp only at h ⊢
      rw [Outcome.run_bind_of_ok (run_get _)] at h
      generalize desk.files.createDirAll parent = made at h
      obtain ⟨result, files⟩ := made
      cases result with
      | error f => cases h
      | ok _ =>
          rw [hread ((Outcome.run_bind_of_ok (run_settle rfl files desk) _).symm.trans h)]

/-- A job that has prepared has made room for its outputs. -/
theorem ground_of_prepare (h : (prepare job).run.run desk = (.ok classes, after)) :
    job.ground desk.files = .ok after.files := by
  rw [prepare, Outcome.run_bind_of_ok (run_get desk)] at h
  dsimp only at h
  split at h
  · cases h
  · cases hsources : withoutStale desk.files job.sources with
    | error f =>
        rw [Outcome.run_bind_of_error (run_removeStale_of_error hsources)] at h
        cases h
    | ok t₁ =>
        rw [Outcome.run_bind_of_ok (run_removeStale hsources)] at h
        refine Outcome.bind_eq_ok.2 ⟨t₁, hsources, ?_⟩
        cases hl : job.lineTable with
        | none =>
            rw [hl] at h
            exact withParent_of_readClasses _ h
        | some dest =>
            rw [hl] at h
            dsimp only at h
            cases hlines : withoutStale t₁ dest with
            | error f =>
                have hfails : (removeStale dest).run.run { desk with files := t₁ }
                    = (.error (.io dest f), { desk with files := t₁ }) :=
                  run_removeStale_of_error hlines
                rw [Outcome.run_bind_of_error hfails] at h
                cases h
            | ok t₂ =>
                have hremove : (removeStale dest).run.run { desk with files := t₁ }
                    = (.ok (), { desk with files := t₂ }) := run_removeStale hlines
                rw [Outcome.run_bind_of_ok hremove] at h
                refine Outcome.bind_eq_ok.2 ⟨t₂, hlines, ?_⟩
                exact withParent_of_readClasses _ h

/-- A tree without an older output is plain, and has no other files than before. -/
theorem withoutStale_plain {t u : FileTree} {p : Path} (h : t.Plain)
    (hstale : withoutStale t p = .ok u) : u.Plain ∧ t.BringsNoFile u := by
  rw [withoutStale] at hstale
  cases hremove : t.removeFile p with
  | ok v =>
      rw [hremove] at hstale
      obtain rfl := Except.ok.inj hstale
      exact ⟨(h.removeFile hremove).1.plain,
        (FileTree.sheds_removeFile hremove).bringsNoFile⟩
  | error f =>
      rw [hremove] at hstale
      cases f with
      | notFound => obtain rfl := Except.ok.inj hstale; exact ⟨h, .refl _⟩
      | _ => cases hstale

/-- An older output stays away while no files come, if its path never goes up. -/
theorem isFile_of_withoutStale {t u v : FileTree} {p : Path} (ht : t.Plain) (hp : p.Descends)
    (hstale : withoutStale t p = .ok u) (hv : v.Plain) (hfrom : u.BringsNoFile v) :
    v.isFile p = false := by
  refine Bool.eq_false_iff.2 fun hfile => ?_
  obtain ⟨content, hstat⟩ := FileTree.stat_of_isFile hfile
  obtain ⟨-, hat⟩ := hv.stat_file hstat
  have hthere := hfrom _ content hat
  rw [withoutStale] at hstale
  cases hremove : t.removeFile p with
  | ok t' =>
      rw [hremove] at hstale
      obtain rfl := Except.ok.inj hstale
      rw [(ht.removeFile hremove).2, if_pos rfl] at hthere
      cases hthere
  | error f =>
      rw [hremove] at hstale
      cases f with
      | notFound =>
          -- the file was there before, so it could have been removed
          obtain rfl := Except.ok.inj hstale
          obtain ⟨t', ht'⟩ := FileTree.removeFile_of_isFile
            (hv.isFile_of_descends ht hp hfile (hthere.trans hat.symm))
          cases hremove.symm.trans ht'
      | _ => cases hstale

theorem withParent_plain {t u : FileTree} {p : Path} (h : t.Plain)
    (hparent : withParent t p = .ok u) : u.Plain ∧ t.BringsNoFile u := by
  rw [withParent] at hparent
  cases hp : p.parent? with
  | none =>
      rw [hp] at hparent
      obtain rfl := Except.ok.inj hparent
      exact ⟨h, .refl _⟩
  | some parent =>
      have hplain := (h.createDirAll parent).plain
      have hgrows := FileTree.createDirAll_grows t parent
      rw [hp] at hparent
      dsimp only at hparent
      generalize t.createDirAll parent = made at hparent hplain hgrows
      obtain ⟨result, v⟩ := made
      cases result with
      | error f => cases hparent
      | ok _ =>
          obtain rfl := Except.ok.inj hparent
          exact ⟨hplain, hgrows.bringsNoFile⟩

/-- The file for the sources comes and goes. -/
theorem closed_opened_plain (job : Job) {t : FileTree} (h : t.Plain) :
    (job.closed (job.opened t)).Plain ∧ t.BringsNoFile (job.closed (job.opened t)) := by
  rw [Job.opened]
  cases hwrite : t.write (partialPath job.sources) (.raw []) with
  | error f =>
      show (job.closed t).Plain ∧ t.BringsNoFile (job.closed t)
      rw [Job.closed]
      cases hremove : t.removeFile (partialPath job.sources) with
      | error f => exact ⟨h, .refl _⟩
      | ok v =>
          exact ⟨(h.removeFile hremove).1.plain,
            (FileTree.sheds_removeFile hremove).bringsNoFile⟩
  | ok u =>
      show (job.closed u).Plain ∧ t.BringsNoFile (job.closed u)
      obtain ⟨hkeeping, hwritten⟩ := h.write hwrite
      have hfile : u.isFile (partialPath job.sources) = true := by
        obtain ⟨loc, hloc, -, -⟩ := FileTree.write_eq_ok hwrite
        obtain ⟨rfl, -⟩ := h.resolve_eq_ok hloc
        have htarget := h.resolve_target hloc fun heq => by cases heq
        exact FileTree.isFile_of_resolve (h.resolve_keeps hkeeping.plain hkeeping.dirs htarget)
          ((hwritten _).trans (if_pos rfl))
      obtain ⟨v, hremove⟩ := FileTree.removeFile_of_isFile hfile
      obtain ⟨hkeeping', hremoved⟩ := hkeeping.plain.removeFile hremove
      rw [Job.closed, hremove]
      refine ⟨hkeeping'.plain, fun loc content hat => ?_⟩
      have hat : v.at? loc = some (.file content) := hat
      rw [hremoved] at hat
      split at hat
      · cases hat
      · next hne => rwa [hwritten, if_neg hne] at hat

/-- **A failing pool is clean** in a tree without links, if the paths of the outputs never go
    up. -/
theorem worksCleanly_of_plain (hplain : desk.files.Plain)
    (hpaths : ∀ p ∈ job.results, p.Descends) : job.WorksCleanly desk := by
  intro classes after hprepare _ p hp
  have hground := ground_of_prepare hprepare
  obtain ⟨t₁, hsources, hground⟩ := Outcome.bind_eq_ok.1 hground
  obtain ⟨t₂, hlines, hparent⟩ := Outcome.bind_eq_ok.1 hground
  obtain ⟨hplain₁, -⟩ := withoutStale_plain hplain hsources
  have hsecond : t₂.Plain ∧ t₁.BringsNoFile t₂ := by
    cases hl : job.lineTable with
    | none =>
        rw [hl] at hlines
        obtain rfl := Except.ok.inj hlines
        exact ⟨hplain₁, .refl _⟩
    | some dest =>
        rw [hl] at hlines
        exact withoutStale_plain hplain₁ hlines
  obtain ⟨hplain₃, hparentFrom⟩ := withParent_plain hsecond.1 hparent
  obtain ⟨hplain₄, hfrom⟩ := closed_opened_plain job hplain₃
  have hfrom := hparentFrom.trans hfrom
  rcases List.mem_cons.1 hp with rfl | hdest
  · exact isFile_of_withoutStale hplain (hpaths _ hp) hsources hplain₄ (hsecond.2.trans hfrom)
  · rw [Option.mem_toList] at hdest
    rw [hdest] at hlines
    exact isFile_of_withoutStale hplain₁ (hpaths p hp) hlines hplain₄ hfrom

-- ── Failing jobs ─────────────────────────────────────────────────────────────

/-- A job that fails to prepare does nothing else. -/
theorem run_of_prepare_error (d : Decompiler) (runPool : Plan → Pool) {e : Error}
    (hprepare : (prepare job).run.run desk = (.error e, after)) :
    (d.decompileWith runPool job).run.run desk = (.error e, after) := by
  rw [decompileWith]
  exact Outcome.run_bind_of_error hprepare _

/-- A job that has prepared lets its pool come to an end, and goes on from there. -/
theorem exists_run_of_prepare (hsettings : d.settings.validate = .ok ())
    (hchannel : d.settings.queueCapacity ≤ channelLimit) (hschedules : Schedules runPool)
    (hprepare : (prepare job).run.run desk = (.ok classes, after)) :
    ∃ pool events log,
      (Pool.initial (d.planIn job classes after.files)).follow (d.planIn job classes after.files)
        events = some pool
      ∧ pool.ended = true
      ∧ (d.decompileWith runPool job).run.run desk
        = match pool.outcome with
          | .ok (w, sources, bytes) => (commit job classes.size pool w sources bytes).run.run
              { files := job.opened after.files, log }
          | .error e => (.error e, { files := job.closed (job.opened after.files), log }) := by
  obtain ⟨hthreads, hroom⟩ := pos_of_validate hsettings
  obtain ⟨⟨events, hrun⟩, hended⟩ :=
    hschedules (d.planIn job classes after.files) hthreads hroom
  obtain ⟨log, hresult⟩ := run_of_prepare (d := d) runPool hchannel hprepare
  exact ⟨_, events, log, hrun, hended, hresult⟩

/-- How a job can fail: while it prepares, for want of a channel, while its pool works, or while
    it puts its outputs in place. -/
inductive Fails (d : Decompiler) (job : Job) (desk : Desk) : Error → Desk → Prop where
  | preparing {e : Error} {after : Desk} (hprepare : (prepare job).run.run desk = (.error e, after)) :
      Fails d job desk e after
  | crashing {classes : SortedMap String Bytes} {ready : Desk} {log : Log}
      (hlimit : channelLimit < d.settings.queueCapacity)
      (hprepare : (prepare job).run.run desk = (.ok classes, ready)) :
      Fails d job desk .noChannel { files := job.closed ready.files, log }
  | working {classes : SortedMap String Bytes} {ready : Desk} {log : Log} {pool : Pool}
      {events : List Event} {e : Error} (hchannel : d.settings.queueCapacity ≤ channelLimit)
      (hprepare : (prepare job).run.run desk = (.ok classes, ready))
      (hrun : (Pool.initial (d.planIn job classes ready.files)).follow
        (d.planIn job classes ready.files) events = some pool)
      (hended : pool.ended = true) (houtcome : pool.outcome = .error e) :
      Fails d job desk e { files := job.closed (job.opened ready.files), log }
  | placing {classes : SortedMap String Bytes} {ready after : Desk} {log : Log} {pool : Pool}
      {events : List Event} {w : SourceWriter} {sources bytes : Nat} {e : Error}
      (hchannel : d.settings.queueCapacity ≤ channelLimit)
      (hprepare : (prepare job).run.run desk = (.ok classes, ready))
      (hrun : (Pool.initial (d.planIn job classes ready.files)).follow
        (d.planIn job classes ready.files) events = some pool)
      (houtcome : pool.outcome = .ok (w, sources, bytes))
      (hcommit : (commit job classes.size pool w sources bytes).run.run
        { files := job.opened ready.files, log } = (.error e, after)) :
      Fails d job desk e after

/-- **Every failure is one of these.** -/
theorem fails_of_run (hsettings : d.settings.validate = .ok ()) (hschedules : Schedules runPool)
    {e : Error} (hfails : (d.decompileWith runPool job).run.run desk = (.error e, after)) :
    Fails d job desk e after := by
  cases hprepare : (prepare job).run.run desk with
  | mk result ready =>
  cases result with
  | error e' =>
      rw [run_of_prepare_error d runPool hprepare] at hfails
      cases hfails
      exact .preparing hprepare
  | ok classes =>
      by_cases hchannel : d.settings.queueCapacity ≤ channelLimit
      · obtain ⟨pool, events, log, hrun, hended, hresult⟩ :=
          exists_run_of_prepare hsettings hchannel hschedules hprepare
        rw [hresult] at hfails
        cases houtcome : pool.outcome with
        | error e' =>
            rw [houtcome] at hfails
            cases hfails
            exact .working hchannel hprepare hrun hended houtcome
        | ok made =>
            obtain ⟨w, sources, bytes⟩ := made
            rw [houtcome] at hfails
            exact .placing hchannel hprepare hrun houtcome hfails
      · have hlimit := Nat.lt_of_not_le hchannel
        obtain ⟨log, hcrash⟩ := run_of_noChannel (d := d) runPool hlimit hprepare
        rw [hcrash] at hfails
        cases hfails
        exact .crashing hlimit hprepare

/-- A covered job leaves no output when it returns an error. -/
theorem Fails.leavesNothing {e : Error} (hfails : Fails d job desk e after)
    (hcovered : job.Covered d.settings desk) (hreturns : e ≠ .noChannel) :
    job.LeavesNothing after.files := by
  cases hfails with
  | preparing hprepare => exact hcovered.preparing _ _ hprepare
  | crashing => exact absurd rfl hreturns
  | @working classes ready _ pool _ e hchannel hprepare hrun hended houtcome =>
      have hcan : classes.size ≠ 0 ∨ job.created ready.files ≠ .ok () := by
        by_contra hcannot
        rw [not_or, not_not, not_not] at hcannot
        -- without classes there is no call that could fail
        have hempty : d.contexts job classes = [] :=
          List.length_eq_zero_iff.1 ((d.length_contexts job classes).trans hcannot.1)
        have hcreated : (d.planIn job classes ready.files).created = .ok () := hcannot.2
        obtain ⟨w, sources, bytes, hok⟩ := outcome_of_nothing hcreated
          (fun c hc => nomatch (show c ∈ [] from hempty ▸ hc)) hrun hended
        exact nomatch houtcome.symm.trans hok
      intro p hp
      rcases List.mem_cons.1 hp with rfl | hp
      · exact job.isFile_closed _
      · exact hcovered.working hchannel classes ready hprepare hcan p hp
  | @placing classes ready _ log pool _ w sources bytes e hchannel hprepare hrun houtcome hcommit =>
      obtain ⟨hok, hleaves⟩ :=
        run_commit_rehearsed job classes.size pool w sources bytes ready.files log
      rw [hcommit] at hok hleaves
      have hcreated := created_of_outcome hrun houtcome
      exact hleaves.2 (hcovered.placing hchannel classes ready hprepare hcreated hok.symm)

/-- Only a job that cannot have its channel crashes, and it leaves no file for its sources. -/
theorem Fails.of_noChannel (hfails : Fails d job desk .noChannel after) :
    channelLimit < d.settings.queueCapacity
      ∧ after.files.isFile (partialPath job.sources) = false := by
  generalize he : Error.noChannel = e at hfails
  cases hfails with
  | preparing hprepare => exact absurd (he ▸ hprepare) (returns_prepare job desk after)
  | crashing hlimit => exact ⟨hlimit, job.isFile_closed _⟩
  | @working _ ready _ _ _ _ _ _ hrun _ houtcome =>
      obtain ⟨past, hsound⟩ := (sound_initial _).follow hrun
      exact absurd (he ▸ houtcome)
        (hsound.outcome_ne_noChannel (job.created_ne_noChannel ready.files))
  | placing _ _ _ _ hcommit =>
      exact absurd (he ▸ hcommit) (returns_commit job _ _ _ _ _ _ after)

/-- Class after class is a schedule. -/
theorem schedules_run : Schedules Pool.run :=
  fun plan hthreads hroom => Pool.run_ended plan hthreads hroom

/-- A decompiler that crashes on every class makes the pool fail, if there is a class. -/
theorem exists_error_of_crash {plan : Plan} {p : Pool} {events : List Event}
    (hcrash : ∀ c ∈ plan.classes, plan.answer c = .crash) (hclasses : plan.classes.length ≠ 0)
    (hrun : (Pool.initial plan).follow plan events = some p) (hended : p.ended = true) :
    ∃ e, p.outcome = .error e := by
  have herror : plan.error? 0 = some .taskFailure := by
    have hfirst : plan.classes[0]? = some (plan.classes[0]) :=
      List.getElem?_eq_getElem (Nat.pos_of_ne_zero hclasses)
    rw [Plan.error?, hfirst, Option.bind_some, hcrash _ (List.getElem_mem _)]
    rfl
  obtain ⟨past, hsound⟩ := (sound_initial plan).follow hrun
  exact Pool.exists_error_of_failure
    (failure_of_error hsound (traced_of_follow hrun) hended herror)

/-- A decompiler that has one answer for every class. -/
def answering (answer : Answer) (settings : Settings) : Decompiler where
  backend := { name := "", run := fun _ _ => answer }
  settings

section Necessity

variable {settings : Settings} (hsettings : settings.validate = .ok ())
  (hchannel : settings.queueCapacity ≤ channelLimit)
  (h : ∀ answer e after, ((answering answer settings).decompile job).run.run desk
    = (.error e, after) → e ≠ .noChannel → job.LeavesNothing after.files)

include hsettings hchannel h

theorem leavesNothing_of_error (answer : Answer) {e : Error} {last : Desk}
    (hfails : ((answering answer settings).decompile job).run.run desk = (.error e, last)) :
    job.LeavesNothing last.files := by
  refine h answer e last hfails ?_
  rintro rfl
  have hlimit : channelLimit < settings.queueCapacity :=
    (fails_of_run (d := answering answer settings) hsettings schedules_run hfails).of_noChannel.1
  omega

/-- A decompiler that crashes makes the job fail while its pool works. -/
theorem worksCleanly_of_leavesNothing : job.WorksCleanly desk := by
  intro classes after hprepare hcan p hp
  obtain ⟨pool, events, log, hrun, hended, hresult⟩ :=
    exists_run_of_prepare (d := answering .crash settings) hsettings hchannel schedules_run
      hprepare
  have hbad : ∃ e, pool.outcome = .error e := by
    rcases hcan with hclasses | hcreated
    · refine exists_error_of_crash (fun c _ => rfl) (fun hempty => hclasses ?_) hrun hended
      exact (length_contexts _ job classes).symm.trans hempty
    · cases houtcome : pool.outcome with
      | error e => exact ⟨e, rfl⟩
      | ok result => exact absurd (created_of_outcome hrun houtcome) hcreated
  obtain ⟨e, hbad⟩ := hbad
  rw [hbad] at hresult
  exact leavesNothing_of_error hsettings hchannel h _ hresult p (List.mem_cons_of_mem _ hp)

/-- A decompiler that makes nothing of a class lets the job put its outputs in place. -/
theorem placesCleanly_of_leavesNothing : job.PlacesCleanly desk := by
  intro classes after hprepare hcreated hfails
  obtain ⟨pool, events, log, hrun, hended, hresult⟩ :=
    exists_run_of_prepare (d := answering .nothing settings) hsettings hchannel schedules_run
      hprepare
  obtain ⟨w, sources, bytes, hmade⟩ := outcome_of_nothing hcreated (fun c _ => rfl) hrun hended
  rw [hmade] at hresult
  dsimp only at hresult
  obtain ⟨hok, hleaves⟩ :=
    run_commit_rehearsed job classes.size pool w sources bytes after.files log
  rw [← hresult] at hok hleaves
  generalize hend : ((answering .nothing settings).decompileWith Pool.run job).run.run desk
    = ending at hok hleaves
  obtain ⟨result, last⟩ := ending
  cases result with
  | ok stats => exact nomatch hok.trans hfails
  | error e => exact hleaves.1 (leavesNothing_of_error hsettings hchannel h _ hend)

end Necessity

/-- An archive with one class, and more. -/
def classWith (more : List (Location × Node)) : Desk where
  files := { nodes := .ofList ((["in.jar"], .file (.archive [⟨"A.class", [1]⟩])) :: more) }

/-- A job with a line table. -/
def tableJob : Job where
  input := ⟨"in.jar"⟩
  sources := ⟨"s.jar"⟩
  lineTable := some ⟨"lines.txt"⟩

/-- All that an earlier job could leave. -/
def staleDesk : Desk :=
  classWith [(["s.jar"], .file (.archive [])), (["s.jar.partial"], .file (.raw [])),
    (["lines.txt"], .file (.raw []))]

/-- The job fails with an error, and a path that should be free leads to a file. -/
def Leaves (d : Decompiler) (job : Job) (desk : Desk) (e : Error) (p : Path) : Prop :=
  desk.files.isFile job.input = true ∧ p ∈ partialPath job.sources :: job.results
    ∧ ((d.decompile job).run.run desk).1 = .error e
    ∧ ((d.decompile job).run.run desk).2.files.isFile p = true

instance (d : Decompiler) (job : Job) (desk : Desk) (e : Error) (p : Path) :
    Decidable (d.Leaves job desk e p) :=
  inferInstanceAs (Decidable (_ ∧ _ ∧ _ ∧ _))

def oneThread : Settings := { threads := 1 }

/-- The directory `x` is missing: it is made for the sources, which then cannot take its place. -/
def roundaboutJob : Job := { tableJob with sources := ⟨"x/../x"⟩ }

/-- The same directory is on the way to the sources. -/
def detourJob : Job := { tableJob with sources := ⟨"x/../s.jar"⟩ }

/-- A directory has the name of the temporary file of the lines. -/
def blockedDesk : Desk := classWith [(["lines.tmp"], .dir)]

/-- There are older sources. -/
def olderDesk : Desk := classWith [(["s.jar"], .file (.raw []))]

/-- The input is no archive, and there is an older file for the sources. -/
def unreadableDesk : Desk where
  files := { nodes := .ofList [
    (["in.jar"], .file (.raw [])), (["s.jar.partial"], .file (.raw []))] }

end Decompiler

end Nomenclator.Decompile
