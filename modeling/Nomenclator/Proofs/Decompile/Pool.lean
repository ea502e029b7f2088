import Mathlib.Algebra.GroupWithZero.Nat
import Mathlib.Data.List.Nodup
import Nomenclator.Decompile.Pool
import Nomenclator.Proofs.Archive.Builder
import Nomenclator.Proofs.LineTable

/-! # The pool — what holds in every order of events

    A job may go on in many ways; whatever the order of its events, the parties of a
    pool stay in step.

    * **`Next`** — what an event can do, read off `Pool.step` once;
    * **`Fits`** — for one class, how its worker, its stage and what all parties can
      see go together;
    * **`Sound`** — all classes fit, the channel and the archive hold sources of
      classes that came this way, none of them twice, and the table holds the lines
      of the classes that recorded theirs.  `Sound.after` is the step,
      `Sound.follow` the run;
    * **`left`** — a bound on the number of events to come.  It shrinks with every
      event (`Next.left_lt`), and a pool that has not ended can go on
      (`exists_nextEvent`). -/

namespace Nomenclator.Decompile

-- ── What a plan fixes ────────────────────────────────────────────────────────

/-- The source in an answer. -/
def Answer.source? : Answer → Option DecompiledClass
  | .source c => some c
  | _ => none

/-- The error with which a worker ends after an answer. -/
def Answer.error? (backend className : String) : Answer → Option Error
  | .failure chain => some (.workerFailure backend className (": ".intercalate chain))
  | .crash => some .taskFailure
  | _ => none

/-- The lines that are recorded for a class after an answer. -/
def Answer.lines? (className : String) (answer : Answer) : Option (String × LineRows) :=
  answer.source?.bind fun c => c.report.map fun report => (className, report.compose)

/-- A source on its way to the writer. -/
def DecompiledClass.delivery (c : DecompiledClass) (i : Nat) : Delivery :=
  { index := i, path := c.outputPath, data := Text.encodeUtf8 c.source.toList }

/-- The file that a delivery becomes. -/
def Delivery.file (d : Delivery) : String × Bytes := (d.path, d.data)

namespace Plan

variable (plan : Plan)

/-- What the decompiler makes of a class. -/
def answer (c : ClassContext × Bytes) : Answer := plan.backend.run c.1 c.2

/-- The source of the class at an index. -/
def source? (i : Nat) : Option DecompiledClass :=
  plan.classes[i]?.bind fun c => (plan.answer c).source?

/-- The error with which the worker of the class at an index ends. -/
def error? (i : Nat) : Option Error :=
  plan.classes[i]?.bind fun c => (plan.answer c).error? plan.backend.name c.1.binaryName

/-- The lines that are recorded for the class at an index. -/
def lines? (i : Nat) : Option (String × LineRows) :=
  plan.classes[i]?.bind fun c => (plan.answer c).lines? c.1.binaryName

end Plan

section Answers

variable {plan : Plan} {i : Nat} {c : ClassContext × Bytes}

theorem Plan.answer_of_source? {source : DecompiledClass} (h : plan.source? i = some source)
    (hc : plan.classes[i]? = some c) : plan.answer c = .source source := by
  rw [Plan.source?, hc, Option.bind_some] at h
  cases hanswer : plan.answer c with
  | source => rw [hanswer] at h; exact congrArg _ (Option.some.inj h)
  | nothing | failure | crash => rw [hanswer] at h; exact nomatch h

theorem Plan.error?_of_source? {source : DecompiledClass} (h : plan.source? i = some source) :
    plan.error? i = none := by
  obtain ⟨c, hc, -⟩ := Option.bind_eq_some_iff.1 h
  rw [Plan.error?, hc, Option.bind_some, Plan.answer_of_source? h hc]
  rfl

/-- A class with neither source nor error is one of which the decompiler made nothing. -/
theorem Plan.answer_eq_nothing (hc : plan.classes[i]? = some c) (hsource : plan.source? i = none)
    (herror : plan.error? i = none) : plan.answer c = .nothing := by
  rw [Plan.source?, hc, Option.bind_some] at hsource
  rw [Plan.error?, hc, Option.bind_some] at herror
  cases hanswer : plan.answer c with
  | nothing => rfl
  | source => rw [hanswer] at hsource; exact nomatch hsource
  | failure | crash => rw [hanswer] at herror; exact nomatch herror

end Answers

-- ── What an event can do ─────────────────────────────────────────────────────

/-- Has the writer stopped with an error? -/
def WriterState.isBroken : WriterState → Bool
  | .broken _ => true
  | _ => false

/-- Has the writer nothing left to do? -/
def WriterState.isOver : WriterState → Bool
  | .broken _ => true
  | .finished .. => true
  | _ => false

/-- What an event makes of a pool in which it can happen. -/
inductive Next (plan : Plan) (p : Pool) : Event → Pool → Prop where
  | opened : p.writer = .opening → plan.created = .ok () →
      Next plan p .openWriter { p with writer := .ready (SourceWriter.start .empty) 0 0 }
  | notCreated {error} : p.writer = .opening → plan.created = .error error →
      Next plan p .openWriter { p with writer := .broken error }
  | took {i} : p.workers[i]? = some .waiting → p.runningCount < plan.threads →
      Next plan p (.take i) ((p.setStage i .decompiling).setWorker i .running)
  | failed {i error} : p.workers[i]? = some .running → plan.error? i = some error →
      Next plan p (.finish i) (p.setWorker i (.ended (some error)))
  | skipped {i} : p.workers[i]? = some .running → plan.source? i = none → plan.error? i = none →
      Next plan p (.finish i) ((p.setStage i .decompiled).setWorker i (.ended none))
  | returned {i c} : p.workers[i]? = some .running → plan.source? i = some c →
      Next plan p (.finish i) ((p.setStage i .decompiled).setWorker i (.returned c))
  | recorded {i c} : p.workers[i]? = some (.returned c) →
      Next plan p (.record i) ((Pool.recordLines plan p i c).setWorker i (.recorded c))
  | queued {i c} : p.workers[i]? = some (.recorded c) →
      Next plan p (.queue i) ((p.setStage i .queuedForWrite).setWorker i (.sending c))
  | refused {i c} : p.workers[i]? = some (.sending c) → p.writer.isOver = true →
      Next plan p (.send i) (p.setWorker i (.ended (some .writerClosed)))
  | sent {i c} : p.workers[i]? = some (.sending c) → p.writer.isOver = false →
      p.channel.length < plan.capacity →
      Next plan p (.send i)
        ({ p with channel := p.channel ++ [c.delivery i] }.setWorker i (.ended none))
  | wrote {w w' sources bytes d later} : p.writer = .ready w sources bytes →
      p.channel = d :: later → w.builder.addFile d.path d.data = (true, w'.builder) →
      Next plan p .write { p.setStage d.index .written with
        channel := later
        writer := .ready w' (sources + 1) (bytes + d.data.length) }
  | notWritten {w sources bytes d later b} : p.writer = .ready w sources bytes →
      p.channel = d :: later → w.builder.addFile d.path d.data = (false, b) →
      Next plan p .write { p with channel := [], writer := .broken (.archive plan.output) }
  | closed {w sources bytes} : p.writer = .ready w sources bytes → p.channel = [] →
      p.workers.all Worker.isOver = true →
      Next plan p .closeWriter { p with writer := .finished w sources bytes }
  | joined {i error} : i ∉ p.joined → p.workers[i]? = some (.ended error) →
      Next plan p (.join i) { p with joined := i :: p.joined, failure := p.failure.or error }
  | joinedCancelled {i} : i ∉ p.joined → p.workers[i]? = some .cancelled →
      Next plan p (.join i) { p with joined := i :: p.joined }
  | cancelled {i w} : p.failure.isSome = true → p.workers[i]? = some w → w.isOver = false →
      Next plan p (.cancel i) (p.setWorker i .cancelled)

variable {plan : Plan} {p p' : Pool} {e : Event} {i : Nat}

theorem next_of_runBackend {c : ClassContext × Bytes} (hi : p.workers[i]? = some .running)
    (hc : plan.classes[i]? = some c) :
    Next plan p (.finish i) (Pool.runBackend plan p i c.1 c.2) := by
  have hsource : plan.source? i = (plan.answer c).source? := by
    rw [Plan.source?, hc]
    rfl
  have herror : plan.error? i = (plan.answer c).error? plan.backend.name c.1.binaryName := by
    rw [Plan.error?, hc]
    rfl
  rw [Pool.runBackend]
  cases hrun : plan.backend.run c.1 c.2 with
  | failure chain => exact .failed hi (herror.trans (by rw [Plan.answer, hrun]; rfl))
  | crash => exact .failed hi (herror.trans (by rw [Plan.answer, hrun]; rfl))
  | nothing =>
      exact .skipped hi (hsource.trans (by rw [Plan.answer, hrun]; rfl))
        (herror.trans (by rw [Plan.answer, hrun]; rfl))
  | source s => exact .returned hi (hsource.trans (by rw [Plan.answer, hrun]; rfl))

theorem next_of_deliver {c : DecompiledClass} (hi : p.workers[i]? = some (.sending c))
    (h : Pool.deliver plan p i c = some p') : Next plan p (.send i) p' := by
  rw [Pool.deliver] at h
  split at h
  · next error hw => exact Option.some.inj h ▸ .refused hi (by rw [hw]; rfl)
  · next w sources bytes hw => exact Option.some.inj h ▸ .refused hi (by rw [hw]; rfl)
  · next hbroken hfinished =>
    have hopen : p.writer.isOver = false := by
      cases hw : p.writer with
      | broken error => exact absurd hw (hbroken error)
      | finished w sources bytes => exact absurd hw (hfinished w sources bytes)
      | _ => rfl
    split at h
    · next hroom => exact Option.some.inj h ▸ .sent hi hopen hroom
    · exact nomatch h

theorem next_of_write {w : SourceWriter} {sources bytes : Nat} {d : Delivery}
    {later : List Delivery} (hw : p.writer = .ready w sources bytes)
    (hch : p.channel = d :: later) (h : Pool.step plan p .write = some p') :
    Next plan p .write p' := by
  rw [Pool.step, hw, hch] at h
  dsimp only at h
  rw [SourceWriter.write] at h
  cases hadd : w.builder.addFile d.path d.data with
  | mk flag b =>
      rw [hadd] at h
      cases flag with
      | true =>
          rw [← Option.some.inj h]
          refine .wrote hw hch ?_
          exact hadd
      | false => exact Option.some.inj h ▸ .notWritten hw hch hadd

/-- **What a step can do.** -/
theorem next_of_step (h : Pool.step plan p e = some p') : Next plan p e p' := by
  cases e with
  | openWriter =>
      rw [Pool.step] at h
      split at h
      · next hw =>
        split at h
        · next hc => exact Option.some.inj h ▸ .opened hw hc
        · next error hc => exact Option.some.inj h ▸ .notCreated hw hc
      · exact nomatch h
  | take i =>
      rw [Pool.step] at h
      split at h
      · next hi =>
        split at h
        · next hfree => exact Option.some.inj h ▸ .took hi hfree
        · exact nomatch h
      · exact nomatch h
  | finish i =>
      rw [Pool.step] at h
      split at h
      · next context bytecode hi hc => exact Option.some.inj h ▸ next_of_runBackend hi hc
      · exact nomatch h
  | record i =>
      rw [Pool.step] at h
      split at h
      · next c hi => exact Option.some.inj h ▸ .recorded hi
      · exact nomatch h
  | queue i =>
      rw [Pool.step] at h
      split at h
      · next c hi => exact Option.some.inj h ▸ .queued hi
      · exact nomatch h
  | send i =>
      rw [Pool.step] at h
      split at h
      · next c hi => exact next_of_deliver hi h
      · exact nomatch h
  | write =>
      cases hw : p.writer with
      | ready w sources bytes =>
          cases hch : p.channel with
          | nil => rw [Pool.step, hw, hch] at h; exact nomatch h
          | cons d later => exact next_of_write hw hch h
      | _ => rw [Pool.step, hw] at h; exact nomatch h
  | closeWriter =>
      rw [Pool.step] at h
      split at h
      · next w sources bytes hw hch =>
        split at h
        · next hall => exact Option.some.inj h ▸ .closed hw hch hall
        · exact nomatch h
      · exact nomatch h
  | join i =>
      rw [Pool.step] at h
      split at h
      · exact nomatch h
      · next hj =>
        have hnot : i ∉ p.joined := fun hmem => hj (List.contains_iff_mem.2 hmem)
        split at h
        · next error hi => exact Option.some.inj h ▸ .joined hnot hi
        · next hi => exact Option.some.inj h ▸ .joinedCancelled hnot hi
        · exact nomatch h
  | cancel i =>
      rw [Pool.step] at h
      split at h
      · exact nomatch h
      · next hf =>
        have hsome : p.failure.isSome = true := by
          rw [← Option.not_isNone, Bool.not_eq_true']
          exact Bool.eq_false_iff.2 hf
        split at h
        · next w hi =>
          split at h
          · exact nomatch h
          · next hlive => exact Option.some.inj h ▸ .cancelled hsome hi (Bool.eq_false_iff.2 hlive)
        · exact nomatch h

-- ── How a class, its worker and its stage go together ────────────────────────

/-- What has happened so far: the classes that recorded their lines and the sources that were
    written, both in order. -/
structure History where
  noted : List Nat := []
  written : List Delivery := []
  deriving DecidableEq

/-- What all parties can see of a pool and its history. -/
structure Board extends History where
  channel : List Delivery
  broken : Bool
  failed : Bool

/-- The board of a pool with a history. -/
def Pool.board (p : Pool) (past : History) : Board :=
  { toHistory := past
    channel := p.channel
    broken := p.writer.isBroken
    failed := p.failure.isSome }

/-- What a worker can be about while its class is at a stage. -/
inductive Fits (plan : Plan) (board : Board) (i : Nat) : Worker → Stage → Prop where
  | waiting : i ∉ board.noted → Fits plan board i .waiting .queued
  | running : i ∉ board.noted → Fits plan board i .running .decompiling
  | returned {c : DecompiledClass} : plan.source? i = some c → i ∉ board.noted →
      Fits plan board i (.returned c) .decompiled
  | recorded {c : DecompiledClass} : plan.source? i = some c → i ∈ board.noted →
      Fits plan board i (.recorded c) .decompiled
  | sending {c : DecompiledClass} : plan.source? i = some c → i ∈ board.noted →
      Fits plan board i (.sending c) .queuedForWrite
  | skipped : plan.source? i = none → plan.error? i = none →
      Fits plan board i (.ended none) .decompiled
  | sent {c : DecompiledClass} : plan.source? i = some c → i ∈ board.noted →
      c.delivery i ∈ board.channel → Fits plan board i (.ended none) .queuedForWrite
  | written {c : DecompiledClass} : plan.source? i = some c → i ∈ board.noted →
      c.delivery i ∈ board.written → Fits plan board i (.ended none) .written
  | lost {c : DecompiledClass} : plan.source? i = some c → i ∈ board.noted →
      board.broken = true → Fits plan board i (.ended none) .queuedForWrite
  | refused {c : DecompiledClass} : plan.source? i = some c → i ∈ board.noted →
      board.broken = true → Fits plan board i (.ended (some .writerClosed)) .queuedForWrite
  | failed {error : Error} : plan.error? i = some error →
      Fits plan board i (.ended (some error)) .decompiling
  | cancelled {s : Stage} : board.failed = true → s ≠ .written → Fits plan board i .cancelled s

variable {board board' : Board} {w : Worker} {s : Stage} {past : History}

/-- What fits goes on fitting while the class keeps what it has on the board, where a source
    may get lost only when the writer stops. -/
theorem Fits.mono (h : Fits plan board i w s) (hnoted : i ∈ board'.noted ↔ i ∈ board.noted)
    (hchannel : ∀ d ∈ board.channel, d.index = i → d ∈ board'.channel ∨ board'.broken = true)
    (hwritten : ∀ d ∈ board.written, d ∈ board'.written)
    (hbroken : board.broken = true → board'.broken = true)
    (hfailed : board.failed = true → board'.failed = true) : Fits plan board' i w s := by
  cases h with
  | waiting hn => exact .waiting (mt hnoted.1 hn)
  | running hn => exact .running (mt hnoted.1 hn)
  | returned hc hn => exact .returned hc (mt hnoted.1 hn)
  | recorded hc hn => exact .recorded hc (hnoted.2 hn)
  | sending hc hn => exact .sending hc (hnoted.2 hn)
  | skipped hc he => exact .skipped hc he
  | sent hc hn hd =>
      rcases hchannel _ hd rfl with hthere | hlost
      · exact .sent hc (hnoted.2 hn) hthere
      · exact .lost hc (hnoted.2 hn) hlost
  | written hc hn hd => exact .written hc (hnoted.2 hn) (hwritten _ hd)
  | lost hc hn hb => exact .lost hc (hnoted.2 hn) (hbroken hb)
  | refused hc hn hb => exact .refused hc (hnoted.2 hn) (hbroken hb)
  | failed he => exact .failed he
  | cancelled hf hs => exact .cancelled (hfailed hf) hs

/-- A worker that has ended well is done with its source, so that the source can be written. -/
theorem Fits.toWritten (h : Fits plan board i (.ended none) s) {c : DecompiledClass}
    (hc : plan.source? i = some c) (hnoted : ∀ j, j ∈ board.noted → j ∈ board'.noted)
    (hin : c.delivery i ∈ board'.written) : Fits plan board' i (.ended none) .written := by
  cases h with
  | skipped hnone => exact nomatch hnone.symm.trans hc
  | sent _ hn => exact .written hc (hnoted i hn) hin
  | written _ hn => exact .written hc (hnoted i hn) hin
  | lost _ hn => exact .written hc (hnoted i hn) hin

/-- A class is written only after its worker has ended. -/
theorem Fits.ne_written (h : Fits plan board i w s) (hlive : w.isOver = false) :
    s ≠ .written := by
  rintro rfl
  cases h with
  | written => exact nomatch hlive
  | cancelled _ hs => exact hs rfl

-- ── How the parties of a pool go together ────────────────────────────────────

/-- Sources of classes of the plan, each as it leaves its worker and none of them twice. -/
structure Genuine (plan : Plan) (ds : List Delivery) : Prop where
  source : ∀ d ∈ ds, ∃ c, plan.source? d.index = some c ∧ d = c.delivery d.index
  once : (ds.map Delivery.index).Nodup

theorem Genuine.sublist {ds ds' : List Delivery} (h : Genuine plan ds) (hsub : ds'.Sublist ds) :
    Genuine plan ds' :=
  ⟨fun d hd => h.source d (hsub.subset hd), h.once.sublist (hsub.map _)⟩

theorem Genuine.concat {ds : List Delivery} (h : Genuine plan ds) {c : DecompiledClass}
    (hc : plan.source? i = some c) (hnew : ∀ d ∈ ds, d.index ≠ i) :
    Genuine plan (ds ++ [c.delivery i]) := by
  refine ⟨fun d hd => ?_, ?_⟩
  · rcases List.mem_append.1 hd with hd | hd
    · exact h.source d hd
    · rw [List.mem_singleton.1 hd]
      exact ⟨c, hc, rfl⟩
  · rw [List.map_append, List.nodup_append]
    refine ⟨h.once, List.nodup_singleton _, ?_⟩
    rintro j hj k hk rfl
    obtain ⟨d, hd, rfl⟩ := List.mem_map.1 hj
    exact hnew d hd (List.mem_singleton.1 hk)

/-- The files of an archive to which sources have been written. -/
def archiveFiles (written : List Delivery) : List (String × Bytes) :=
  (SourceWriter.manifestName, SourceWriter.manifest) :: written.map Delivery.file

/-- The writer has written these sources, and has counted them and their octets. -/
structure Wrote (written : List Delivery) (w : SourceWriter) (sources bytes : Nat) : Prop where
  built : Archive.Builder.addFiles {} (archiveFiles written) = (true, w.builder)
  sources_eq : sources = written.length
  bytes_eq : bytes = (written.map fun d => d.data.length).sum

theorem Wrote.concat {written : List Delivery} {w w' : SourceWriter} {sources bytes : Nat}
    (h : Wrote written w sources bytes) {d : Delivery}
    (hadd : w.builder.addFile d.path d.data = (true, w'.builder)) :
    Wrote (written ++ [d]) w' (sources + 1) (bytes + d.data.length) where
  built := by
    rw [archiveFiles, List.map_append, ← List.cons_append]
    show Archive.Builder.addFiles {} (archiveFiles written ++ [d.file]) = _
    rw [Archive.Builder.addFiles_append, h.built]
    dsimp only
    rw [Archive.Builder.addFiles, Delivery.file, hadd]
    rfl
  sources_eq := by rw [h.sources_eq, List.length_append]; rfl
  bytes_eq := by rw [h.bytes_eq, List.map_append, List.sum_append]; rfl

/-- Why a writer stops: the archive could not be created, or a source not be appended. -/
inductive Stops (plan : Plan) : Error → Prop where
  | notCreated {error : Error} : plan.created = .error error → Stops plan error
  | notWritten {ds : List Delivery} {d : Delivery} {b b' : Archive.Builder} :
      Genuine plan (ds ++ [d]) → Archive.Builder.addFiles {} (archiveFiles ds) = (true, b) →
      b.addFile d.path d.data = (false, b') → Stops plan (.archive plan.output)

/-- What the state of the writer says about the sources that were written. -/
def WriterState.Tells (plan : Plan) (written : List Delivery) : WriterState → Prop
  | .opening => written = []
  | .ready w sources bytes => Wrote written w sources bytes
  | .finished w sources bytes => Wrote written w sources bytes
  | .broken error => Stops plan error

/-- Only workers that are over are joined, give the job its failure, or let the writer end. -/
structure Settled (p : Pool) : Prop where
  joined : ∀ i ∈ p.joined, ∃ w, p.workers[i]? = some w ∧ w.isOver = true
  failure : ∀ error, p.failure = some error → ∃ i : Nat, p.workers[i]? = some (.ended (some error))
  finished : ∀ w sources bytes, p.writer = .finished w sources bytes →
    ∀ w ∈ p.workers, w.isOver = true

/-- **The parties of a pool are in step.** -/
structure Sound (plan : Plan) (past : History) (p : Pool) : Prop extends Settled p where
  workers_length : p.workers.length = plan.classes.length
  stages_length : p.stages.length = plan.classes.length
  fits : ∀ i w s, p.workers[i]? = some w → p.stages[i]? = some s →
    Fits plan (p.board past) i w s
  genuine : Genuine plan (past.written ++ p.channel)
  ended : ∀ d ∈ past.written ++ p.channel, p.workers[d.index]? = some (.ended none)
  noted : past.noted.Nodup
  lines : p.lines = LineTable.insertEach {} (past.noted.filterMap plan.lines?)
  writer : p.writer.Tells plan past.written
  drained : ∀ w sources bytes, p.writer = .finished w sources bytes → p.channel = []
  joined_once : p.joined.Nodup

theorem sound_initial (plan : Plan) : Sound plan {} (Pool.initial plan) := by
  have hworkers : ∀ (i : Nat) w, (Pool.initial plan).workers[i]? = some w → w = .waiting := by
    intro i w hw
    obtain ⟨c, -, hc⟩ := List.mem_map.1 (List.mem_of_getElem? hw)
    exact hc.symm
  have hstages : ∀ (i : Nat) s, (Pool.initial plan).stages[i]? = some s → s = .queued := by
    intro i s hs
    obtain ⟨c, -, hc⟩ := List.mem_map.1 (List.mem_of_getElem? hs)
    exact hc.symm
  exact {
    workers_length := List.length_map _
    stages_length := List.length_map _
    fits := by
      intro i w s hw hs
      rw [hworkers i w hw, hstages i s hs]
      exact .waiting List.not_mem_nil
    genuine := ⟨(fun _ h => nomatch h), List.nodup_nil⟩
    ended := fun _ h => nomatch h
    noted := List.nodup_nil
    lines := rfl
    writer := rfl
    joined := fun _ h => nomatch h
    failure := fun _ h => nomatch h
    finished := fun _ _ _ h => nomatch h
    drained := fun _ _ _ h => nomatch h
    joined_once := List.nodup_nil }

-- ── One event ────────────────────────────────────────────────────────────────

theorem getElem?_set_cases {α : Type} {xs : List α} {j : Nat} {a b : α}
    (h : (xs.set i a)[j]? = some b) : (j = i ∧ b = a) ∨ (j ≠ i ∧ xs[j]? = some b) := by
  by_cases hj : j = i
  · subst hj
    have hlt : j < (xs.set j a).length := (List.getElem?_eq_some_iff.1 h).1
    rw [List.length_set] at hlt
    rw [List.getElem?_set_self hlt] at h
    exact .inl ⟨rfl, (Option.some.inj h).symm⟩
  · rw [List.getElem?_set_ne (Ne.symm hj)] at h
    exact .inr ⟨hj, h⟩

theorem Sound.exists_stage (h : Sound plan past p) (hi : p.workers[i]? = some w) :
    ∃ s, p.stages[i]? = some s ∧ Fits plan (p.board past) i w s := by
  have hlt : i < p.stages.length := by
    rw [h.stages_length, ← h.workers_length]
    exact (List.getElem?_eq_some_iff.1 hi).1
  exact ⟨p.stages[i], List.getElem?_eq_getElem hlt, h.fits i w _ hi (List.getElem?_eq_getElem hlt)⟩

/-- A worker is cancelled only after the job has failed. -/
theorem Sound.not_cancelled (h : Sound plan past p) (hfailure : p.failure = none) (i : Nat) :
    p.workers[i]? ≠ some .cancelled := by
  intro hi
  obtain ⟨s, -, hfits⟩ := h.exists_stage hi
  cases hfits with
  | cancelled hfailed =>
      have hsome : p.failure.isSome = true := hfailed
      rw [hfailure] at hsome
      exact nomatch hsome

/-- A worker that is over is not one that is not. -/
theorem ne_of_live (hi : p.workers[i]? = some w) (hlive : w.isOver = false) {j : Nat}
    {w' : Worker} (hj : p.workers[j]? = some w') (hover : w'.isOver = true) : j ≠ i := by
  rintro rfl
  rw [hi, Option.some.injEq] at hj
  rw [← hj, hlive] at hover
  exact nomatch hover

/-- Whatever a worker does that is not over, the others stay as they are. -/
theorem getElem?_set_of_live (hi : p.workers[i]? = some w) (hlive : w.isOver = false) {j : Nat}
    {v : Worker} (hj : p.workers[j]? = some v) (hover : v.isOver = true) (w' : Worker) :
    (p.workers.set i w')[j]? = some v :=
  (List.getElem?_set_ne (Ne.symm (ne_of_live hi hlive hj hover))).trans hj

theorem Settled.not_finished (h : Settled p) (hi : p.workers[i]? = some w)
    (hlive : w.isOver = false) (writer : SourceWriter) (sources bytes : Nat) :
    p.writer ≠ .finished writer sources bytes := by
  intro hw
  have hover := h.finished _ _ _ hw w (List.mem_of_getElem? hi)
  rw [hlive] at hover
  exact nomatch hover

/-- A step of a worker that is not over settles nothing. -/
theorem Settled.step (h : Settled p) (hi : p.workers[i]? = some w) (hlive : w.isOver = false)
    {w' : Worker} (hworkers : p'.workers = p.workers.set i w') (hjoined : p'.joined = p.joined)
    (hfailure : p'.failure = p.failure) (hwriter : p'.writer = p.writer) : Settled p' where
  joined := by
    intro j hj
    rw [hjoined] at hj
    obtain ⟨v, hv, hover⟩ := h.joined j hj
    exact ⟨v, hworkers ▸ getElem?_set_of_live hi hlive hv hover w', hover⟩
  failure := by
    intro error herror
    rw [hfailure] at herror
    obtain ⟨j, hj⟩ := h.failure error herror
    exact ⟨j, hworkers ▸ getElem?_set_of_live hi hlive hj rfl w'⟩
  finished := fun _ _ _ hw => absurd (hwriter ▸ hw) (h.not_finished hi hlive _ _ _)

/-- A worker takes a step of its own, and its class may get to another stage. -/
theorem Sound.move (h : Sound plan past p) (hi : p.workers[i]? = some w)
    (hlive : w.isOver = false) {w' : Worker} {s' : Stage}
    (hfits : Fits plan (p.board past) i w' s') :
    Sound plan past ((p.setStage i s').setWorker i w') := by
  exact {
    workers_length := (List.length_set ..).trans h.workers_length
    stages_length := (List.length_set ..).trans h.stages_length
    fits := by
      intro j v s hv hs
      rcases getElem?_set_cases hv with ⟨rfl, rfl⟩ | ⟨hne, hv⟩
      · rcases getElem?_set_cases hs with ⟨-, rfl⟩ | ⟨hne, -⟩
        · exact hfits
        · exact absurd rfl hne
      · rcases getElem?_set_cases hs with ⟨heq, -⟩ | ⟨-, hs⟩
        · exact absurd heq hne
        · exact h.fits j v s hv hs
    genuine := h.genuine
    ended := fun d hd => getElem?_set_of_live hi hlive (h.ended d hd) rfl w'
    noted := h.noted
    lines := h.lines
    writer := h.writer
    drained := h.drained
    joined_once := h.joined_once
    toSettled := h.toSettled.step hi hlive rfl rfl rfl rfl }

/-- A worker takes a step of its own while its class stays at its stage. -/
theorem Sound.moveWorker (h : Sound plan past p) (hi : p.workers[i]? = some w)
    (hlive : w.isOver = false) {w' : Worker} (hs : p.stages[i]? = some s)
    (hfits : Fits plan (p.board past) i w' s) : Sound plan past (p.setWorker i w') := by
  have hsame : p.setStage i s = p := by
    obtain ⟨hlt, rfl⟩ := List.getElem?_eq_some_iff.1 hs
    rw [Pool.setStage, List.set_getElem_self]
  rw [← hsame]
  exact h.move hi hlive hfits

/-- Recording changes nothing but the lines. -/
theorem exists_recordLines (plan : Plan) (p : Pool) (i : Nat) (c : DecompiledClass) :
    ∃ lines, Pool.recordLines plan p i c = { p with lines } := by
  rw [Pool.recordLines]
  split
  · exact ⟨_, rfl⟩
  · exact ⟨p.lines, rfl⟩

/-- Recording adds the lines that the plan has for the class. -/
theorem recordLines_eq {c : DecompiledClass} (hc : plan.source? i = some c) (p : Pool) :
    Pool.recordLines plan p i c
      = { p with lines := p.lines.insertEach (plan.lines? i).toList } := by
  obtain ⟨context, hclass, hsource⟩ := Option.bind_eq_some_iff.1 hc
  rw [Pool.recordLines, Plan.lines?, hclass, Option.bind_some, Answer.lines?, hsource,
    Option.bind_some]
  cases c.report with
  | none => rfl
  | some report => rfl

theorem Sound.recorded (h : Sound plan past p) {c : DecompiledClass}
    (hi : p.workers[i]? = some (.returned c)) :
    Sound plan { past with noted := past.noted ++ [i] }
      ((Pool.recordLines plan p i c).setWorker i (.recorded c)) := by
  obtain ⟨s, hs, hfits⟩ := h.exists_stage hi
  cases hfits with
  | returned hc hnew =>
  rw [recordLines_eq hc]
  have hnoted : ∀ j, j ≠ i → (j ∈ past.noted ++ [i] ↔ j ∈ past.noted) := by
    intro j hne
    rw [List.mem_append, List.mem_singleton, or_iff_left hne]
  exact {
    workers_length := (List.length_set ..).trans h.workers_length
    stages_length := h.stages_length
    fits := by
      intro j v s' hv hs'
      rcases getElem?_set_cases hv with ⟨rfl, rfl⟩ | ⟨hne, hv⟩
      · obtain rfl := Option.some.inj (hs.symm.trans hs')
        exact .recorded hc (List.mem_append_right _ (List.mem_singleton.2 rfl))
      · exact (h.fits j v s' hv hs').mono (hnoted j hne) (fun _ hd _ => .inl hd) (fun _ hd => hd)
          id id
    genuine := h.genuine
    ended := fun d hd => getElem?_set_of_live hi rfl (h.ended d hd) rfl _
    noted := List.nodup_append.2 ⟨h.noted, List.nodup_singleton i, by
      rintro j hj k hk rfl
      exact hnew (List.mem_singleton.1 hk ▸ hj)⟩
    lines := by
      show p.lines.insertEach _ = _
      rw [h.lines, List.filterMap_append, LineTable.insertEach, LineTable.insertEach,
        LineTable.insertEach, List.foldl_append]
      refine congrArg (List.foldl _ _) ?_
      cases hlines : plan.lines? i with
      | none => rw [List.filterMap_cons_none hlines]; rfl
      | some lines => rw [List.filterMap_cons_some hlines]; rfl
    writer := h.writer
    drained := fun _ _ _ hw => absurd hw (h.not_finished hi rfl _ _ _)
    joined_once := h.joined_once
    toSettled := h.toSettled.step hi rfl rfl rfl rfl rfl }

theorem Sound.sent (h : Sound plan past p) {c : DecompiledClass}
    (hi : p.workers[i]? = some (.sending c)) :
    Sound plan past
      ({ p with channel := p.channel ++ [c.delivery i] }.setWorker i (.ended none)) := by
  obtain ⟨s, hs, hfits⟩ := h.exists_stage hi
  cases hfits with
  | sending hc hnoted =>
  have hlt : i < p.workers.length := (List.getElem?_eq_some_iff.1 hi).1
  exact {
    workers_length := (List.length_set ..).trans h.workers_length
    stages_length := h.stages_length
    fits := by
      intro j v s' hv hs'
      rcases getElem?_set_cases hv with ⟨rfl, rfl⟩ | ⟨hne, hv⟩
      · obtain rfl := Option.some.inj (hs.symm.trans hs')
        exact .sent hc hnoted (List.mem_append_right _ (List.mem_singleton.2 rfl))
      · exact (h.fits j v s' hv hs').mono Iff.rfl
          (fun _ hd _ => .inl (List.mem_append_left _ hd)) (fun _ hd => hd) id id
    genuine := by
      show Genuine plan (past.written ++ (p.channel ++ [c.delivery i]))
      rw [← List.append_assoc]
      exact h.genuine.concat hc fun d hd => ne_of_live hi rfl (h.ended d hd) rfl
    ended := by
      intro d hd
      have hd : d ∈ past.written ++ (p.channel ++ [c.delivery i]) := hd
      rw [← List.append_assoc] at hd
      rcases List.mem_append.1 hd with hd | hd
      · exact getElem?_set_of_live hi rfl (h.ended d hd) rfl _
      · rw [List.mem_singleton.1 hd]
        exact List.getElem?_set_self hlt
    noted := h.noted
    lines := h.lines
    writer := h.writer
    drained := fun _ _ _ hw => absurd hw (h.not_finished hi rfl _ _ _)
    joined_once := h.joined_once
    toSettled := h.toSettled.step hi rfl rfl rfl rfl rfl }

/-- The writer gets to another state, and the channel may be emptied when it stops. -/
theorem Sound.setWriter (h : Sound plan past p) {state : WriterState} {channel : List Delivery}
    (htells : state.Tells plan past.written) (hlive : p.writer.isOver = false)
    (hchannel : channel = p.channel ∨ (channel = [] ∧ state.isBroken = true))
    (hdrained : ∀ w sources bytes, state = .finished w sources bytes → channel = [])
    (hfinished : ∀ w sources bytes, state = .finished w sources bytes →
      ∀ w ∈ p.workers, w.isOver = true) :
    Sound plan past { p with channel, writer := state } := by
  have hsub : channel.Sublist p.channel := by
    rcases hchannel with rfl | ⟨rfl, -⟩
    · exact List.Sublist.refl _
    · exact List.nil_sublist _
  have hall : (past.written ++ channel).Sublist (past.written ++ p.channel) :=
    (List.Sublist.refl _).append hsub
  have hkept : p.writer.isBroken = true → state.isBroken = true := by
    cases hw : p.writer with
    | broken error => rw [hw] at hlive; exact nomatch hlive
    | _ => exact fun hb => nomatch hb
  exact {
    workers_length := h.workers_length
    stages_length := h.stages_length
    fits := by
      intro j v s hv hs
      refine (h.fits j v s hv hs).mono Iff.rfl (fun d hd _ => ?_) (fun _ hd => hd) hkept id
      rcases hchannel with heq | ⟨-, hbroken⟩
      · exact .inl (heq ▸ hd)
      · exact .inr hbroken
    genuine := h.genuine.sublist hall
    ended := fun d hd => h.ended d (hall.subset hd)
    noted := h.noted
    lines := h.lines
    writer := htells
    drained := hdrained
    joined_once := h.joined_once
    joined := h.joined
    failure := h.failure
    finished := hfinished }

theorem Sound.wrote (h : Sound plan past p) {w w' : SourceWriter} {sources bytes : Nat}
    {d : Delivery} {later : List Delivery} (hw : p.writer = .ready w sources bytes)
    (hch : p.channel = d :: later) (hadd : w.builder.addFile d.path d.data = (true, w'.builder)) :
    Sound plan { past with written := past.written ++ [d] }
      { p.setStage d.index .written with
        channel := later
        writer := .ready w' (sources + 1) (bytes + d.data.length) } := by
  have hall : past.written ++ [d] ++ later = past.written ++ p.channel := by
    rw [hch, List.append_assoc]
    rfl
  have hmem : d ∈ past.written ++ p.channel := by
    rw [hch]
    exact List.mem_append_right _ List.mem_cons_self
  have hwrote : Wrote past.written w sources bytes := by
    have htells := h.writer
    rw [hw] at htells
    exact htells
  exact {
    workers_length := h.workers_length
    stages_length := (List.length_set ..).trans h.stages_length
    fits := by
      intro j v s hv hs
      rcases getElem?_set_cases hs with ⟨rfl, rfl⟩ | ⟨hne, hs⟩
      · -- the class that is written: its worker has ended and handed this source on
        obtain rfl := Option.some.inj ((h.ended d hmem).symm.trans hv)
        obtain ⟨c, hc, hd⟩ := h.genuine.source d hmem
        obtain ⟨s', -, hfits⟩ := h.exists_stage hv
        refine hfits.toWritten hc (fun _ hn => hn) ?_
        rw [← hd]
        exact List.mem_append_right _ (List.mem_singleton.2 rfl)
      · refine (h.fits j v s hv hs).mono Iff.rfl (fun d' hd' hindex => ?_)
          (fun _ hd' => List.mem_append_left _ hd') (fun hb => ?_) id
        · have hd' : d' ∈ d :: later := hch ▸ hd'
          rcases List.mem_cons.1 hd' with rfl | hlater
          · exact absurd hindex.symm hne
          · exact .inl hlater
        · have hb : p.writer.isBroken = true := hb
          rw [hw] at hb
          exact nomatch hb
    genuine := by
      show Genuine plan (past.written ++ [d] ++ later)
      rw [hall]
      exact h.genuine
    ended := by
      intro d' hd'
      have hd' : d' ∈ past.written ++ [d] ++ later := hd'
      rw [hall] at hd'
      exact h.ended d' hd'
    noted := h.noted
    lines := h.lines
    writer := hwrote.concat hadd
    drained := fun _ _ _ hw => nomatch hw
    joined_once := h.joined_once
    joined := h.joined
    failure := h.failure
    finished := fun _ _ _ hw => nomatch hw }

theorem Sound.joinedWorker (h : Sound plan past p) (hnot : i ∉ p.joined)
    (hi : p.workers[i]? = some w) (hover : w.isOver = true) {failure : Option Error}
    (hkept : p.failure.isSome = true → failure.isSome = true)
    (hfailure : ∀ error, failure = some error →
      ∃ j : Nat, p.workers[j]? = some (.ended (some error))) :
    Sound plan past { p with joined := i :: p.joined, failure } :=
  { workers_length := h.workers_length
    stages_length := h.stages_length
    fits := fun j v s hv hs => (h.fits j v s hv hs).mono Iff.rfl (fun _ hd _ => .inl hd)
      (fun _ hd => hd) id hkept
    genuine := h.genuine
    ended := h.ended
    noted := h.noted
    lines := h.lines
    writer := h.writer
    drained := h.drained
    joined_once := List.nodup_cons.2 ⟨hnot, h.joined_once⟩
    joined := by
      intro j hj
      rcases List.mem_cons.1 hj with rfl | hj
      · exact ⟨w, hi, hover⟩
      · exact h.joined j hj
    failure := hfailure
    finished := h.finished }

/-- The manifest can be written to an empty archive. -/
theorem wrote_start : Wrote [] (SourceWriter.start .empty) 0 0 where
  built := by
    obtain ⟨b, hadd, -⟩ := Archive.Builder.lists_empty.addFile
      (show ¬ Archive.EndsInSlash SourceWriter.manifestName by decide) (fun _ h => nomatch h)
      SourceWriter.manifest
    rw [archiveFiles, List.map_nil, Archive.Builder.addFiles, hadd, SourceWriter.start,
      SourceWriter.write]
    rw [show ({ dirs := .empty } : Archive.Builder) = {} from rfl, hadd]
    rfl
  sources_eq := rfl
  bytes_eq := rfl

/-- What has happened after an event that leads from one pool to another. -/
def History.after (past : History) (p p' : Pool) : Event → History
  | .record i => { past with noted := past.noted ++ [i] }
  | .write =>
    if p'.writer.isBroken then past
    else { past with written := past.written ++ p.channel.take 1 }
  | _ => past

/-- **What an event leaves sound.** -/
theorem Sound.after (h : Sound plan past p) (hnext : Next plan p e p') :
    Sound plan (past.after p p' e) p' := by
  have htells := h.writer
  cases hnext with
  | opened hw hc =>
      rw [hw] at htells
      have hnone : past.written = [] := htells
      have hlive : p.writer.isOver = false := by rw [hw]; rfl
      refine h.setWriter ?_ hlive (.inl rfl) (fun _ _ _ hf => nomatch hf)
        (fun _ _ _ hf => nomatch hf)
      rw [hnone]
      exact wrote_start
  | notCreated hw hc =>
      have hlive : p.writer.isOver = false := by rw [hw]; rfl
      exact h.setWriter (.notCreated hc) hlive (.inl rfl) (fun _ _ _ hf => nomatch hf)
        (fun _ _ _ hf => nomatch hf)
  | took hi hfree =>
      obtain ⟨s, -, hfits⟩ := h.exists_stage hi
      cases hfits with
      | waiting hnew => exact h.move hi rfl (.running hnew)
  | failed hi herror =>
      obtain ⟨s, hs, hfits⟩ := h.exists_stage hi
      cases hfits with
      | running hnew => exact h.moveWorker hi rfl hs (.failed herror)
  | skipped hi hnone herror => exact h.move hi rfl (.skipped hnone herror)
  | returned hi hc =>
      obtain ⟨s, -, hfits⟩ := h.exists_stage hi
      cases hfits with
      | running hnew => exact h.move hi rfl (.returned hc hnew)
  | recorded hi => exact h.recorded hi
  | queued hi =>
      obtain ⟨s, -, hfits⟩ := h.exists_stage hi
      cases hfits with
      | recorded hc hnoted => exact h.move hi rfl (.sending hc hnoted)
  | refused hi hover =>
      obtain ⟨s, hs, hfits⟩ := h.exists_stage hi
      have hbroken : p.writer.isBroken = true := by
        cases hw : p.writer with
        | broken error => rfl
        | finished w sources bytes => exact absurd hw (h.not_finished hi rfl _ _ _)
        | _ => rw [hw] at hover; exact nomatch hover
      cases hfits with
      | sending hc hnoted => exact h.moveWorker hi rfl hs (.refused hc hnoted hbroken)
  | sent hi hopen hroom => exact h.sent hi
  | wrote hw hch hadd =>
      have hwrote := h.wrote hw hch hadd
      rw [History.after, hch]
      exact hwrote
  | @notWritten w sources bytes d later b hw hch hadd =>
      rw [hw] at htells
      have hwrote : Wrote past.written w sources bytes := htells
      have hlive : p.writer.isOver = false := by rw [hw]; rfl
      have hgenuine : Genuine plan (past.written ++ [d]) := by
        refine h.genuine.sublist ?_
        rw [hch]
        exact (List.Sublist.refl _).append (List.singleton_sublist.2 List.mem_cons_self)
      exact h.setWriter (.notWritten hgenuine hwrote.built hadd) hlive (.inr ⟨rfl, rfl⟩)
        (fun _ _ _ hf => nomatch hf) (fun _ _ _ hf => nomatch hf)
  | closed hw hch hall =>
      rw [hw] at htells
      have hlive : p.writer.isOver = false := by rw [hw]; rfl
      exact h.setWriter htells hlive (.inl rfl) (fun _ _ _ _ => hch)
        (fun _ _ _ _ => List.all_eq_true.1 hall)
  | @joined i error hnot hi =>
      refine h.joinedWorker hnot hi rfl (fun hsome => ?_) (fun error' herror => ?_)
      · rw [Option.isSome_or, hsome]
        rfl
      · rcases Option.or_eq_some_iff.1 herror with hold | ⟨-, hnew⟩
        · exact h.failure error' hold
        · exact ⟨i, hnew ▸ hi⟩
  | joinedCancelled hnot hi => exact h.joinedWorker hnot hi rfl id h.failure
  | cancelled hfailure hi hlive =>
      obtain ⟨s, hs, hfits⟩ := h.exists_stage hi
      exact h.moveWorker hi hlive hs (.cancelled hfailure (hfits.ne_written hlive))

theorem Sound.next (h : Sound plan past p) (hnext : Next plan p e p') :
    ∃ past', Sound plan past' p' :=
  ⟨past.after p p' e, h.after hnext⟩

-- ── Many events ──────────────────────────────────────────────────────────────

/-- The pool after events, if they can happen one after the other. -/
def Pool.follow (plan : Plan) (p : Pool) (events : List Event) : Option Pool :=
  events.foldlM (Pool.step plan) p

theorem Pool.follow_cons (e : Event) (later : List Event) :
    p.follow plan (e :: later) = (Pool.step plan p e).bind fun next => next.follow plan later :=
  List.foldlM_cons ..

/-- **What a run leaves sound.** -/
theorem Sound.follow (h : Sound plan past p) {events : List Event}
    (hrun : p.follow plan events = some p') : ∃ past', Sound plan past' p' := by
  induction events generalizing p past with
  | nil => exact Option.some.inj hrun ▸ ⟨past, h⟩
  | cons e later ih =>
      rw [Pool.follow_cons] at hrun
      obtain ⟨next, hstep, hlater⟩ := Option.bind_eq_some_iff.1 hrun
      obtain ⟨past', h'⟩ := h.next (next_of_step hstep)
      exact ih h' hlater

end Nomenclator.Decompile
