import Nomenclator.Proofs.Decompile.Calls
import Nomenclator.Proofs.Decompile.Schedule

/-! # Failing jobs — which error is reported

    A job keeps the first error that it sees, cancels the workers that are left and
    waits for the writer.  What it reports in the end comes from the failure, the
    state of the writer and the stages together (`Pool.outcome`):

    * while the writer goes on, an error at the end is that of a class whose own call
      has failed (`Sound.error_of_failure`), and a class whose call fails makes the
      job fail, whether it is joined or cancelled (`failure_of_error`);
    * when the writer stops and no call fails, all that workers can report is that
      nobody takes their sources, and the job reports the error of the writer
      instead (`outcome_of_broken`). -/

namespace Nomenclator.Decompile

open Files (Path FileTree IoFault)

variable {plan : Plan} {past : History} {p : Pool} {i : Nat} {events : List Event}

-- ── Pools ────────────────────────────────────────────────────────────────────

/-- The error of a worker is that of its call, unless the writer has stopped. -/
theorem Sound.error_of_ended (h : Sound plan past p) {error : Error}
    (hi : p.workers[i]? = some (.ended (some error))) :
    plan.error? i = some error ∨ (error = .writerClosed ∧ p.writer.isBroken = true) := by
  obtain ⟨s, -, hfits⟩ := h.exists_stage hi
  cases hfits with
  | refused _ _ hbroken => exact .inr ⟨rfl, hbroken⟩
  | failed herror => exact .inl herror

/-- The failure of a job is the error of a call, unless the writer has stopped. -/
theorem Sound.error_of_failure (h : Sound plan past p) {error : Error}
    (hfailure : p.failure = some error) (hwriter : p.writer.isBroken = false) :
    ∃ i : Nat, p.workers[i]? = some (.ended (some error)) ∧ plan.error? i = some error := by
  obtain ⟨i, hi⟩ := h.failure error hfailure
  rcases h.error_of_ended hi with herror | ⟨-, hbroken⟩
  · exact ⟨i, hi, herror⟩
  · exact nomatch hwriter.symm.trans hbroken

/-- A worker whose class has an error does not end well. -/
theorem Sound.not_ended_well (h : Sound plan past p) {error : Error}
    (herror : plan.error? i = some error) : p.workers[i]? ≠ some (.ended none) := by
  intro hi
  obtain ⟨s, -, hfits⟩ := h.exists_stage hi
  cases hfits with
  | skipped _ hnone => exact nomatch hnone.symm.trans herror
  | sent hc | written hc | lost hc => exact nomatch (Plan.error?_of_source? hc).symm.trans herror

theorem Plan.lt_of_error? {error : Error} (h : plan.error? i = some error) :
    i < plan.classes.length := by
  obtain ⟨c, hc, -⟩ := Option.bind_eq_some_iff.1 h
  exact (List.getElem?_eq_some_iff.1 hc).1

/-- At the end, every worker is over and has been joined. -/
theorem Sound.joined_of_ended (h : Sound plan past p) (hended : p.ended = true)
    (hi : i < plan.classes.length) :
    i ∈ p.joined ∧ ∃ w, p.workers[i]? = some w ∧ w.isOver = true := by
  obtain ⟨hjoined, -⟩ := Bool.and_eq_true_iff.1 hended
  rw [← h.workers_length] at hi
  have hmem : i ∈ p.joined :=
    List.contains_iff_mem.1 (List.all_eq_true.1 hjoined i (List.mem_range.2 hi))
  exact ⟨hmem, h.joined i hmem⟩

/-- A class whose call fails makes the job fail: its worker ends with the error, or is cancelled
    because the job has failed before. -/
theorem failure_of_error (h : Sound plan past p) (htraced : Traced plan events p)
    (hended : p.ended = true) {error : Error} (herror : plan.error? i = some error) :
    p.failure.isSome = true := by
  obtain ⟨hjoined, w, hi, hover⟩ := h.joined_of_ended hended (Plan.lt_of_error? herror)
  cases w with
  | ended found =>
      cases found with
      | none => exact absurd hi (h.not_ended_well herror)
      | some found => exact htraced.failed i found hjoined hi
  | cancelled =>
      by_contra hnone
      rw [Option.isSome_iff_ne_none, not_not] at hnone
      exact h.not_cancelled hnone i hi
  | waiting | running | returned | recorded | sending => exact nomatch hover

/-- Without a failure, and with a writer that has not stopped, all has ended well. -/
theorem outcome_of_no_failure (h : Sound plan past p) (htraced : Traced plan events p)
    (hended : p.ended = true) (hfailure : p.failure = none) (hwriter : p.writer.isBroken = false) :
    ∃ w sources bytes, p.outcome = .ok (w, sources, bytes) := by
  obtain ⟨-, hover⟩ := Bool.and_eq_true_iff.1 hended
  have hworkers : ∀ v ∈ p.workers, v = .ended none := by
    intro v hv
    obtain ⟨i, hi⟩ := List.getElem?_of_mem hv
    have hlt : i < plan.classes.length := by
      rw [← h.workers_length]
      exact (List.getElem?_eq_some_iff.1 hi).1
    obtain ⟨hjoined, w, hw, hover⟩ := h.joined_of_ended hended hlt
    obtain rfl := Option.some.inj (hi.symm.trans hw)
    cases v with
    | ended found =>
        cases found with
        | none => rfl
        | some found =>
            have hsome := htraced.failed i found hjoined hi
            rw [hfailure] at hsome
            exact nomatch hsome
    | cancelled => exact absurd hi (h.not_cancelled hfailure i)
    | waiting | running | returned | recorded | sending => exact nomatch hover
  cases hw : p.writer with
  | opening | ready => rw [hw] at hover; exact nomatch hover
  | broken => rw [hw] at hwriter; exact nomatch hwriter
  | finished w sources bytes => exact ⟨w, sources, bytes, h.outcome_of_ended hw hworkers⟩

/-- With a writer that has not stopped, the failure of a job is what it reports. -/
theorem Pool.outcome_of_failure {error : Error} (hfailure : p.failure = some error)
    (hwriter : p.writer.isBroken = false) : p.outcome = .error error := by
  rw [outcome, hfailure]
  cases hw : p.writer with
  | broken => rw [hw] at hwriter; cases hwriter
  | opening | ready | finished => cases error <;> rfl

theorem outcome_eq_error_iff (h : Sound plan past p) (htraced : Traced plan events p)
    (hended : p.ended = true) (hwriter : p.writer.isBroken = false) {error : Error} :
    p.outcome = .error error ↔ p.failure = some error := by
  cases hfailure : p.failure with
  | none =>
      obtain ⟨w, sources, bytes, hok⟩ := outcome_of_no_failure h htraced hended hfailure hwriter
      rw [hok]
      exact ⟨nofun, nofun⟩
  | some found =>
      rw [Pool.outcome_of_failure hfailure hwriter, Except.error.injEq, Option.some.injEq]

/-- A writer that has stopped is what is reported, if no call has failed. -/
theorem outcome_of_broken (h : Sound plan past p) (htraced : Traced plan events p)
    {error : Error} (hwriter : p.writer = .broken error)
    (hcalls : ∀ i, .take i ∈ events → plan.error? i = none) : p.outcome = .error error := by
  rw [Pool.outcome, hwriter]
  cases hfailure : p.failure with
  | none => rfl
  | some found =>
      -- only a source that nobody took can have made a worker fail
      obtain ⟨i, hi⟩ := h.failure found hfailure
      rcases h.error_of_ended hi with herror | ⟨rfl, -⟩
      · have hbegan := (htraced.calls i _ hi).1
        cases (hcalls i hbegan).symm.trans herror
      · rfl

/-- The error of a call says what the decompiler has answered for the class. -/
theorem Plan.error?_cases {error : Error} (h : plan.error? i = some error) :
    ∃ c, plan.classes[i]? = some c
      ∧ ((∃ chain, plan.backend.run c.1 c.2 = .failure chain ∧ error
            = .workerFailure plan.backend.name c.1.binaryName (": ".intercalate chain))
          ∨ (plan.backend.run c.1 c.2 = .crash ∧ error = .taskFailure)) := by
  obtain ⟨c, hc, herror⟩ := Option.bind_eq_some_iff.1 h
  refine ⟨c, hc, ?_⟩
  rw [Plan.answer] at herror
  cases hrun : plan.backend.run c.1 c.2 with
  | failure chain =>
      rw [hrun] at herror
      exact .inl ⟨chain, rfl, (Option.some.inj herror).symm⟩
  | crash =>
      rw [hrun] at herror
      exact .inr ⟨rfl, (Option.some.inj herror).symm⟩
  | nothing | source => rw [hrun] at herror; cases herror

-- ── Jobs ─────────────────────────────────────────────────────────────────────

/-- The outcome of creating the archive of a job. -/
def Job.created (job : Job) (t : FileTree) : Except Error Unit :=
  match t.write (Decompiler.partialPath job.sources) (.raw []) with
  | .ok _ => .ok ()
  | .error fault => .error (.io (Decompiler.partialPath job.sources) fault)

/-- The tree when a job has created its archive, if it can. -/
def Job.opened (job : Job) (t : FileTree) : FileTree :=
  (t.write (Decompiler.partialPath job.sources) (.raw [])).toOption.getD t

namespace Decompiler

variable {d : Decompiler} {job : Job} {desk after : Desk} {classes : SortedMap String Bytes}
  {runPool : Plan → Pool}

/-- The plan of a job in the tree that its preparation has left. -/
def planIn (d : Decompiler) (job : Job) (classes : SortedMap String Bytes) (t : FileTree) : Plan :=
  { d.plan job classes with created := job.created t }

theorem run_createPartial_eq (job : Job) (desk : Desk) :
    (createPartial (partialPath job.sources)).run.run desk
      = (.ok (job.created desk.files), { desk with files := job.opened desk.files }) := by
  rw [createPartial, Outcome.run_bind_of_ok (run_get desk), Job.created, Job.opened]
  cases desk.files.write (partialPath job.sources) (.raw []) <;> rfl

/-- What a job does when it has started its workers: it puts what a good pool leaves in place,
    and removes the archive of another. -/
theorem run_of_prepare (runPool : Plan → Pool) (hchannel : d.settings.queueCapacity ≤ channelLimit)
    (hprepare : (prepare job).run.run desk = (.ok classes, after)) :
    ∃ log, (d.decompileWith runPool job).run.run desk
      = match (runPool (d.planIn job classes after.files)).outcome with
        | .ok (w, sources, bytes) =>
          (commit job classes.size (runPool (d.planIn job classes after.files)) w sources
            bytes).run.run { files := job.opened after.files, log }
        | .error e =>
          (.error e, { files := job.closed (job.opened after.files), log }) := by
  rw [decompileWith, Outcome.run_bind_of_ok hprepare]
  dsimp only
  rw [Outcome.run_bind_of_ok (run_report _ _ _), Outcome.run_bind_of_ok (run_makeChannel hchannel _ _),
    Outcome.run_bind_of_ok (run_createPartial_eq _ _)]
  have hplan : (⟨d.backend, d.contexts job classes, d.settings.threads, d.settings.queueCapacity,
      job.created after.files, partialPath job.sources⟩ : Plan)
        = d.planIn job classes after.files := rfl
  dsimp only
  rw [hplan]
  generalize runPool (d.planIn job classes after.files) = pool
  cases houtcome : pool.outcome with
  | ok result => exact ⟨_, rfl⟩
  | error e =>
      dsimp only
      cases pool.failure with
      | none =>
          obtain ⟨log, hremove⟩ := run_removePartial job
            { files := job.opened after.files, log := after.log ++ [_] }
          refine ⟨log, ?_⟩
          exact Outcome.run_bind_of_ok hremove _
      | some failure =>
          dsimp only
          rw [Outcome.run_bind_of_ok (run_report _ _ _)]
          obtain ⟨log, hremove⟩ := run_removePartial job
            { files := job.opened after.files, log := after.log ++ [_] ++ [_] }
          refine ⟨log, ?_⟩
          exact Outcome.run_bind_of_ok hremove _

/-- **The reported failure is a real one.**  Once the workers of a job have been started, in
    whatever order they come to their end:

    * if the writer does not stop, the job fails before it puts its outputs in place exactly if
      a call of the decompiler that was made fails; the error is then that of a class whose own
      call has returned it, with the names of decompiler and class and the chain of causes, or
      that of a crash; and if one class fails, it is the error of this class;
    * if the writer stops with an error and no call that was made fails, the job reports the
      error of the writer;
    * what the pool reports is what the job reports, and without an error the job goes on to put
      its outputs in place.  A job starts its workers when it has its channel. -/
theorem decompileWith_reports_failure (d : Decompiler) (job : Job) (desk after : Desk)
    (classes : SortedMap String Bytes) (runPool : Plan → Pool) (events : List Event)
    (hprepare : (prepare job).run.run desk = (.ok classes, after))
    (hrun : (Pool.initial (d.planIn job classes after.files)).follow
      (d.planIn job classes after.files) events
        = some (runPool (d.planIn job classes after.files)))
    (hended : (runPool (d.planIn job classes after.files)).ended = true) :
    let plan := d.planIn job classes after.files
    let pool := runPool plan
    let result := (d.decompileWith runPool job).run.run desk
    (pool.writer.isBroken = false →
      ((∃ e, pool.outcome = .error e) ↔ ∃ i, .take i ∈ events ∧ (plan.error? i).isSome = true)
      ∧ (∀ e, pool.outcome = .error e → ∃ i c, .finish i ∈ events
          ∧ (d.contexts job classes)[i]? = some c
          ∧ ((∃ chain, d.backend.run c.1 c.2 = .failure chain
                ∧ e = .workerFailure d.backend.name c.1.binaryName (": ".intercalate chain))
              ∨ (d.backend.run c.1 c.2 = .crash ∧ e = .taskFailure)))
      ∧ (∀ i e, plan.error? i = some e → (∀ j, j ≠ i → plan.error? j = none) →
          pool.outcome = .error e))
    ∧ (∀ e, pool.writer = .broken e → (∀ i, .take i ∈ events → plan.error? i = none) →
        pool.outcome = .error e)
    ∧ (d.settings.queueCapacity ≤ channelLimit →
      (∀ e, pool.outcome = .error e → result.1 = .error e)
      ∧ (∀ w sources bytes, pool.outcome = .ok (w, sources, bytes) → ∃ log,
          result = (commit job classes.size pool w sources bytes).run.run
            { files := job.opened after.files, log })) := by
  intro plan pool result
  obtain ⟨past, hsound⟩ := (sound_initial plan).follow hrun
  have htraced := traced_of_follow hrun
  refine ⟨fun hwriter => ⟨⟨?_, ?_⟩, ?_, ?_⟩, fun e hwriter hcalls => ?_, fun hchannel => ?_⟩
  · rintro ⟨e, he⟩
    have hfailure := (outcome_eq_error_iff hsound htraced hended hwriter).1 he
    obtain ⟨i, hi, herror⟩ := hsound.error_of_failure hfailure hwriter
    exact ⟨i, (htraced.calls i _ hi).1, by rw [herror]; rfl⟩
  · rintro ⟨i, -, herror⟩
    obtain ⟨error, herror⟩ := Option.isSome_iff_exists.1 herror
    obtain ⟨e, hfailure⟩ :=
      Option.isSome_iff_exists.1 (failure_of_error hsound htraced hended herror)
    exact ⟨e, (outcome_eq_error_iff hsound htraced hended hwriter).2 hfailure⟩
  · intro e he
    have hfailure := (outcome_eq_error_iff hsound htraced hended hwriter).1 he
    obtain ⟨i, hi, herror⟩ := hsound.error_of_failure hfailure hwriter
    obtain ⟨c, hc, hanswer⟩ := Plan.error?_cases herror
    exact ⟨i, c, (htraced.calls i _ hi).2, hc, hanswer⟩
  · intro i e herror hothers
    obtain ⟨found, hfailure⟩ :=
      Option.isSome_iff_exists.1 (failure_of_error hsound htraced hended herror)
    obtain ⟨j, -, hj⟩ := hsound.error_of_failure hfailure hwriter
    obtain rfl : j = i := by
      by_contra hne
      exact nomatch (hothers j hne).symm.trans hj
    obtain rfl := Option.some.inj (herror.symm.trans hj)
    exact (outcome_eq_error_iff hsound htraced hended hwriter).2 hfailure
  · exact outcome_of_broken hsound htraced hwriter hcalls
  · obtain ⟨log, hresult⟩ := run_of_prepare (d := d) runPool hchannel hprepare
    refine ⟨fun e he => ?_, fun w sources bytes hok => ⟨log, ?_⟩⟩
    · show ((d.decompileWith runPool job).run.run desk).1 = _
      rw [hresult, he]
    · show (d.decompileWith runPool job).run.run desk = _
      rw [hresult, hok]

/-- A decompiler that fails on one class, crashes on another and makes nothing of a third. -/
def faulty : Decompiler where
  backend := {
    name := "faulty"
    run := fun context _ =>
      match context.entryName with
      | "A.class" => .failure ["bad class", "bad magic"]
      | "B.class" => .crash
      | _ => .nothing }
  settings := { threads := 2, queueCapacity := 1 }

def faultyDesk : Desk where
  files := { nodes := .ofList [
    (["in.jar"], .file (.archive [⟨"A.class", [1]⟩, ⟨"B.class", [2]⟩, ⟨"C.class", [3]⟩]))] }

def faultyJob : Job where
  input := ⟨"in.jar"⟩
  sources := ⟨"s.jar"⟩

def faultyClasses : SortedMap String Bytes :=
  .ofList [("A.class", [1]), ("B.class", [2]), ("C.class", [3])]

/-- Two calls fail, and the second is seen first; the third class is cancelled before its call. -/
def overtaken : List Event :=
  [.take 0, .take 1, .finish 0, .finish 1, .openWriter, .join 1, .cancel 2, .join 0, .join 2,
    .closeWriter]

/-- The pool after these events. -/
def overtaking (plan : Plan) : Pool :=
  ((Pool.initial plan).follow plan overtaken).getD (Pool.initial plan)

theorem decompileWith_reports_failure_overtaken :
    faulty.settings.queueCapacity ≤ channelLimit
      ∧ (prepare faultyJob).run.run faultyDesk = (.ok faultyClasses, faultyDesk)
      ∧ (overtaking (faulty.planIn faultyJob faultyClasses faultyDesk.files)).ended = true
      ∧ (overtaking (faulty.planIn faultyJob faultyClasses faultyDesk.files)).outcome
          = .error .taskFailure
      ∧ ((faulty.decompileWith overtaking faultyJob).run.run faultyDesk).1
          = .error .taskFailure := by
  have hchannel : faulty.settings.queueCapacity ≤ channelLimit := by decide
  have hprepare : (prepare faultyJob).run.run faultyDesk = (.ok faultyClasses, faultyDesk) := by
    refine run_prepare (by decide +kernel) (by decide +kernel) ?_
    decide +kernel
  have hrun : (Pool.initial (faulty.planIn faultyJob faultyClasses faultyDesk.files)).follow
      (faulty.planIn faultyJob faultyClasses faultyDesk.files) overtaken
        = some (overtaking (faulty.planIn faultyJob faultyClasses faultyDesk.files)) := by
    decide +kernel
  have hended : (overtaking (faulty.planIn faultyJob faultyClasses faultyDesk.files)).ended
      = true := by
    decide +kernel
  have houtcome : (overtaking (faulty.planIn faultyJob faultyClasses faultyDesk.files)).outcome
      = .error .taskFailure := by
    decide +kernel
  obtain ⟨-, -, hresult⟩ := decompileWith_reports_failure faulty faultyJob faultyDesk faultyDesk
    faultyClasses overtaking overtaken hprepare hrun hended
  exact ⟨hchannel, hprepare, hended, houtcome, (hresult hchannel).1 _ houtcome⟩

end Decompiler

end Nomenclator.Decompile
