import Mathlib.Data.List.Perm.Subperm
import Nomenclator.Proofs.Decompile.Pool

/-! # The pool — every run comes to its end

    A job goes on to its outputs when all workers have been joined and the writer is
    over (`Pool.ended`).  With a thread and room in the channel no pool gets stuck
    before: `Pool.nextEvent` always finds an event that can happen
    (`exists_nextEvent`).  And no run goes on forever, because every event uses up
    some of the work that is left (`Next.left_lt`): seven events for a class, and two
    for the writer. -/

namespace Nomenclator.Decompile

variable {plan : Plan} {p p' : Pool} {e : Event} {i : Nat} {past : History}

-- ── The work that is left ────────────────────────────────────────────────────

/-- The number of events that a worker can still take part in, the writing of its source
    counted in, its joining not. -/
def Worker.left : Worker → Nat
  | .waiting => 6
  | .running => 5
  | .returned _ => 4
  | .recorded _ => 3
  | .sending _ => 2
  | .ended _ => 0
  | .cancelled => 0

/-- The number of events that open and close the writer and are still to come. -/
def WriterState.left : WriterState → Nat
  | .opening => 2
  | .ready .. => 1
  | .broken _ => 0
  | .finished .. => 0

namespace Pool

/-- A bound on the number of events to come. -/
def left (p : Pool) : Nat :=
  (p.workers.map Worker.left).sum + p.channel.length + p.writer.left
    + (p.workers.length - p.joined.length)

theorem left_initial (plan : Plan) : (initial plan).left = 7 * plan.classes.length + 2 := by
  have hsum : ((initial plan).workers.map Worker.left).sum = 6 * plan.classes.length := by
    rw [initial, List.map_map]
    induction plan.classes with
    | nil => rfl
    | cons c later ih =>
        rw [List.map_cons, List.sum_cons, ih, List.length_cons, Function.comp_apply, Worker.left]
        omega
  have hlength : (initial plan).workers.length = plan.classes.length := List.length_map _
  show ((initial plan).workers.map Worker.left).sum + 0 + 2 + ((initial plan).workers.length - 0) = _
  rw [hsum, hlength]
  omega

/-- The sum over all workers changes by what one worker changes. -/
theorem sum_left_set {workers : List Worker} {w : Worker} (hi : workers[i]? = some w)
    (w' : Worker) :
    ((workers.set i w').map Worker.left).sum + w.left = (workers.map Worker.left).sum + w'.left := by
  induction workers generalizing i with
  | nil => exact nomatch hi
  | cons head rest ih =>
      cases i with
      | zero =>
          obtain rfl := Option.some.inj hi
          rw [List.set_cons_zero, List.map_cons, List.map_cons, List.sum_cons, List.sum_cons]
          omega
      | succ j =>
          rw [List.getElem?_cons_succ] at hi
          have hrest := ih hi
          rw [List.set_cons_succ, List.map_cons, List.map_cons, List.sum_cons, List.sum_cons]
          omega

/-- A worker that has less to do leaves less to do, if nothing else changes. -/
theorem left_lt_of_set {w w' : Worker} (hi : p.workers[i]? = some w)
    (hworkers : p'.workers = p.workers.set i w') (hchannel : p'.channel = p.channel)
    (hwriter : p'.writer = p.writer) (hjoined : p'.joined = p.joined)
    (hless : w'.left < w.left) : p'.left < p.left := by
  have hsum := sum_left_set hi w'
  rw [left, left, hworkers, hchannel, hwriter, hjoined, List.length_set]
  omega

end Pool

/-- Workers are joined once each. -/
theorem Sound.joined_lt (h : Sound plan past p) (hnot : i ∉ p.joined) {w : Worker}
    (hi : p.workers[i]? = some w) : p.joined.length < p.workers.length := by
  have hsub : i :: p.joined ⊆ List.range p.workers.length := by
    intro j hj
    rw [List.mem_range]
    rcases List.mem_cons.1 hj with rfl | hj
    · exact (List.getElem?_eq_some_iff.1 hi).1
    · obtain ⟨v, hv, -⟩ := h.joined j hj
      exact (List.getElem?_eq_some_iff.1 hv).1
  have hle := (List.subperm_of_subset (List.nodup_cons.2 ⟨hnot, h.joined_once⟩) hsub).length_le
  rw [List.length_cons, List.length_range] at hle
  exact hle

/-- **Every event uses up some of the work that is left.** -/
theorem Next.left_lt (hnext : Next plan p e p') (h : Sound plan past p) : p'.left < p.left := by
  cases hnext with
  | opened hw hc =>
      rw [Pool.left, Pool.left, hw]
      simp only [WriterState.left]
      omega
  | notCreated hw hc =>
      rw [Pool.left, Pool.left, hw]
      simp only [WriterState.left]
      omega
  | took hi hfree => exact Pool.left_lt_of_set hi rfl rfl rfl rfl (by decide)
  | failed hi herror => exact Pool.left_lt_of_set hi rfl rfl rfl rfl (show 0 < 5 by decide)
  | skipped hi hnone => exact Pool.left_lt_of_set hi rfl rfl rfl rfl (show 0 < 5 by decide)
  | returned hi hc => exact Pool.left_lt_of_set hi rfl rfl rfl rfl (show 4 < 5 by decide)
  | @recorded i c hi =>
      obtain ⟨lines, hlines⟩ := exists_recordLines plan p i c
      rw [hlines]
      exact Pool.left_lt_of_set hi rfl rfl rfl rfl (show 3 < 4 by decide)
  | queued hi => exact Pool.left_lt_of_set hi rfl rfl rfl rfl (show 2 < 3 by decide)
  | refused hi hover => exact Pool.left_lt_of_set hi rfl rfl rfl rfl (show 0 < 2 by decide)
  | @sent i c hi hopen hroom =>
      -- the source is in the channel now, where it waits to be written
      have hsum := Pool.sum_left_set hi (.ended none)
      show ((p.workers.set i (.ended none)).map Worker.left).sum
          + (p.channel ++ [c.delivery i]).length + p.writer.left
          + ((p.workers.set i (.ended none)).length - p.joined.length) < p.left
      rw [Pool.left, List.length_append, List.length_set, List.length_singleton]
      simp only [Worker.left] at hsum
      omega
  | wrote hw hch hadd =>
      rw [Pool.left, Pool.left, hw, hch]
      simp only [WriterState.left, Pool.setStage, List.length_cons]
      omega
  | notWritten hw hch hadd =>
      rw [Pool.left, Pool.left, hw, hch]
      simp only [WriterState.left, List.length_cons, List.length_nil]
      omega
  | closed hw hch hall =>
      rw [Pool.left, Pool.left, hw]
      simp only [WriterState.left]
      omega
  | joined hnot hi =>
      have hlt := h.joined_lt hnot hi
      rw [Pool.left, Pool.left]
      simp only [List.length_cons]
      omega
  | joinedCancelled hnot hi =>
      have hlt := h.joined_lt hnot hi
      rw [Pool.left, Pool.left]
      simp only [List.length_cons]
      omega
  | @cancelled i w hfailure hi hlive =>
      refine Pool.left_lt_of_set hi rfl rfl rfl rfl ?_
      cases w with
      | ended error => cases hlive
      | cancelled => cases hlive
      | _ => exact Nat.succ_pos _

/-- A run has no more events than there is work. -/
theorem Sound.length_le (h : Sound plan past p) {events : List Event}
    (hrun : p.follow plan events = some p') : events.length + p'.left ≤ p.left := by
  induction events generalizing p past with
  | nil =>
      obtain rfl := Option.some.inj hrun
      exact Nat.le_of_eq (Nat.zero_add _)
  | cons e later ih =>
      rw [Pool.follow_cons] at hrun
      obtain ⟨next, hstep, hlater⟩ := Option.bind_eq_some_iff.1 hrun
      have hnext := next_of_step hstep
      obtain ⟨past', h'⟩ := h.next hnext
      have hless := hnext.left_lt h
      have hrest := ih h' hlater
      rw [List.length_cons]
      omega

-- ── Going on ─────────────────────────────────────────────────────────────────

/-- Can the job go on to its outputs? -/
def Pool.ended (p : Pool) : Bool := p.allJoined && p.writer.isOver

theorem Pool.firstWorker_eq_some {condition : Nat → Worker → Bool}
    (h : p.firstWorker condition = some i) :
    ∃ w, p.workers[i]? = some w ∧ condition i w = true := by
  have hfound := List.find?_some h
  cases hi : p.workers[i]? with
  | none => simp only [hi] at hfound; exact nomatch hfound
  | some w =>
      simp only [hi] at hfound
      exact ⟨w, rfl, hfound⟩

theorem Pool.firstWorker_eq_none {condition : Nat → Worker → Bool}
    (h : p.firstWorker condition = none) {w : Worker} (hi : p.workers[i]? = some w) :
    condition i w = false := by
  have hlt : i ∈ List.range p.workers.length :=
    List.mem_range.2 (List.getElem?_eq_some_iff.1 hi).1
  have hnot := List.find?_eq_none.1 h i hlt
  simp only [hi] at hnot
  exact Bool.eq_false_iff.2 hnot

theorem Pool.step_join (plan : Plan) {w : Worker} (hi : p.workers[i]? = some w) (hover : w.isOver = true)
    (hnot : p.joined.contains i = false) : ∃ p', step plan p (.join i) = some p' := by
  rw [step, hnot, if_neg Bool.false_ne_true, hi]
  cases w with
  | ended error => exact ⟨_, rfl⟩
  | cancelled => exact ⟨_, rfl⟩
  | _ => cases hover

theorem Pool.step_cancel (plan : Plan) {w : Worker} {error : Error} (hf : p.failure = some error)
    (hi : p.workers[i]? = some w) (hlive : w.isOver = false) :
    ∃ p', step plan p (.cancel i) = some p' := by
  rw [step, hf, hi]
  dsimp only
  rw [if_neg (by exact Bool.false_ne_true), hlive, if_neg Bool.false_ne_true]
  exact ⟨_, rfl⟩

theorem Pool.step_write (plan : Plan) {w : SourceWriter} {sources bytes : Nat} {d : Delivery}
    {later : List Delivery} (hw : p.writer = .ready w sources bytes)
    (hch : p.channel = d :: later) : ∃ p', step plan p .write = some p' := by
  rw [step, hw, hch]
  dsimp only
  cases w.write d.path d.data with
  | mk flag w' => cases flag <;> exact ⟨_, rfl⟩

/-- A worker that is under way can go on: if it has to wait for room in the channel, the
    writer can. -/
theorem Pool.step_worker {w : Worker} (h : Sound plan past p) (hroom : 0 < plan.capacity)
    (hi : p.workers[i]? = some w) (hlive : w.isOver = false) (hstarted : w ≠ .waiting)
    (hopening : p.writer ≠ .opening)
    (hidle : ∀ w sources bytes, p.writer = .ready w sources bytes → p.channel = []) :
    ∃ p', (p.workerEvent i).bind (step plan p) = some p' := by
  rw [workerEvent, hi]
  cases w with
  | waiting => exact absurd rfl hstarted
  | running =>
      have hlt : i < plan.classes.length := by
        rw [← h.workers_length]
        exact (List.getElem?_eq_some_iff.1 hi).1
      rw [Option.bind_some, step, hi, List.getElem?_eq_getElem hlt]
      exact ⟨_, rfl⟩
  | returned c =>
      rw [Option.bind_some, step, hi]
      exact ⟨_, rfl⟩
  | recorded c =>
      rw [Option.bind_some, step, hi]
      exact ⟨_, rfl⟩
  | sending c =>
      rw [Option.bind_some, step, hi]
      dsimp only
      rw [deliver]
      cases hw : p.writer with
      | opening => exact absurd hw hopening
      | broken error => exact ⟨_, rfl⟩
      | finished w sources bytes => exact ⟨_, rfl⟩
      | ready w sources bytes =>
          dsimp only
          have hlength : p.channel.length < plan.capacity := by
            rw [hidle w sources bytes hw]
            exact hroom
          rw [if_pos hlength]
          exact ⟨_, rfl⟩
  | ended error => cases hlive
  | cancelled => cases hlive

/-- Where nobody is under way, a permit is free for a worker that waits. -/
theorem Pool.step_take {w : Worker} (hthreads : 0 < plan.threads) (hi : p.workers[i]? = some w)
    (hwait : (w == .waiting) = true)
    (hunderway : p.firstWorker (fun _ w => !w.isOver && w != .waiting) = none) :
    ∃ p', step plan p (.take i) = some p' := by
  have hfree : p.runningCount = 0 := by
    rw [runningCount, List.countP_eq_zero]
    intro v hv hrunning
    obtain ⟨j, hj⟩ := List.getElem?_of_mem hv
    rw [eq_of_beq hrunning] at hj
    have hbusy := firstWorker_eq_none hunderway hj
    cases hbusy
  rw [step, hi, eq_of_beq hwait]
  dsimp only
  rw [hfree, if_pos hthreads]
  exact ⟨_, rfl⟩

/-- A worker that neither waits nor is under way is over. -/
theorem Pool.isOver_of_firstWorker
    (hunderway : p.firstWorker (fun _ w => !w.isOver && w != .waiting) = none)
    (hwaiting : p.firstWorker (fun _ w => w == .waiting) = none) {w : Worker}
    (hi : p.workers[i]? = some w) : w.isOver = true := by
  have hstarted := firstWorker_eq_none hunderway hi
  rw [bne, firstWorker_eq_none hwaiting hi, Bool.not_false, Bool.and_true] at hstarted
  exact Eq.mp (Bool.not_eq_false' _) hstarted

/-- Workers that are all over have been joined when none is left to join. -/
theorem Pool.allJoined_of_firstWorker
    (hover : ∀ {j : Nat} {w : Worker}, p.workers[j]? = some w → w.isOver = true)
    (hjoined : p.firstWorker (fun i w => w.isOver && !p.joined.contains i) = none) :
    p.allJoined = true := by
  rw [allJoined, List.all_eq_true]
  intro j hj
  have hworker := List.getElem?_eq_getElem (List.mem_range.1 hj)
  have hcond := firstWorker_eq_none hjoined hworker
  rw [hover hworker, Bool.true_and] at hcond
  exact Eq.mp (Bool.not_eq_false' _) hcond

/-- A writer with nothing to write can be closed when all workers are over. -/
theorem Pool.step_closeWriter (plan : Plan) {w : SourceWriter} {sources bytes : Nat}
    (hw : p.writer = .ready w sources bytes) (hempty : p.channel = [])
    (hover : ∀ {j : Nat} {w : Worker}, p.workers[j]? = some w → w.isOver = true) :
    ∃ p', step plan p .closeWriter = some p' := by
  have hall : p.workers.all Worker.isOver = true := by
    rw [List.all_eq_true]
    intro v hv
    obtain ⟨j, hj⟩ := List.getElem?_of_mem hv
    exact hover hj
  rw [step, hw, hempty]
  dsimp only
  rw [if_pos hall]
  exact ⟨_, rfl⟩

/-- **No pool gets stuck** before its end. -/
theorem Sound.exists_nextEvent (h : Sound plan past p) (hthreads : 0 < plan.threads)
    (hroom : 0 < plan.capacity) (hended : p.ended = false) :
    ∃ p', p.nextEvent.bind (Pool.step plan p) = some p' := by
  rw [Pool.nextEvent]
  split
  · next hw =>
    rw [Option.bind_some, Pool.step, hw]
    cases plan.created <;> exact ⟨_, rfl⟩
  · next hopening =>
    split
    · next i hi =>
      obtain ⟨w, hw, hcond⟩ := Pool.firstWorker_eq_some hi
      obtain ⟨hover, hnot⟩ := Bool.and_eq_true_iff.1 hcond
      exact Pool.step_join plan hw hover (Eq.mp (Bool.not_eq_true' _) hnot)
    · next hjoined =>
      split
      · next error i hf hi =>
        obtain ⟨w, hw, hlive⟩ := Pool.firstWorker_eq_some hi
        exact Pool.step_cancel plan hf hw (Eq.mp (Bool.not_eq_true' _) hlive)
      · split
        · next w sources bytes d later hw hch => exact Pool.step_write plan hw hch
        · next hidle =>
          have hempty : ∀ w sources bytes, p.writer = .ready w sources bytes → p.channel = [] := by
            intro w sources bytes hw
            cases hch : p.channel with
            | nil => rfl
            | cons d later => exact absurd hch (hidle w sources bytes d later hw)
          split
          · next i hi =>
            obtain ⟨w, hw, hcond⟩ := Pool.firstWorker_eq_some hi
            obtain ⟨hlive, hstarted⟩ := Bool.and_eq_true_iff.1 hcond
            exact Pool.step_worker h hroom hw (Eq.mp (Bool.not_eq_true' _) hlive)
              (bne_iff_ne.1 hstarted) hopening hempty
          · next hunderway =>
            split
            · next i hi =>
              obtain ⟨w, hw, hwait⟩ := Pool.firstWorker_eq_some hi
              exact Pool.step_take hthreads hw hwait hunderway
            · next hwaiting =>
              have hover : ∀ {j : Nat} {v : Worker}, p.workers[j]? = some v → v.isOver = true :=
                Pool.isOver_of_firstWorker hunderway hwaiting
              split
              · next w sources bytes hw =>
                exact Pool.step_closeWriter plan hw (hempty w sources bytes hw) hover
              · next hready =>
                rw [Pool.ended, Pool.allJoined_of_firstWorker hover hjoined, Bool.true_and] at hended
                cases hw : p.writer with
                | opening => exact absurd hw hopening
                | ready w sources bytes => exact absurd hw (hready w sources bytes)
                | broken error => rw [hw] at hended; cases hended
                | finished w sources bytes => rw [hw] at hended; cases hended

/-- Going on as `nextEvent` says comes to the end when there is enough fuel. -/
theorem Sound.runFrom_ended (h : Sound plan past p) (hthreads : 0 < plan.threads)
    (hroom : 0 < plan.capacity) {fuel : Nat} (hfuel : p.left ≤ fuel) :
    (∃ events, p.follow plan events = some (Pool.runFrom plan fuel p))
      ∧ (Pool.runFrom plan fuel p).ended = true := by
  induction fuel generalizing p past with
  | zero =>
      refine ⟨⟨[], rfl⟩, ?_⟩
      by_contra hended
      obtain ⟨next, hnext⟩ := h.exists_nextEvent hthreads hroom (Bool.eq_false_iff.2 hended)
      obtain ⟨e, -, hstep⟩ := Option.bind_eq_some_iff.1 hnext
      have hless := (next_of_step hstep).left_lt h
      omega
  | succ fuel ih =>
      rw [Pool.runFrom]
      cases hnext : p.nextEvent.bind (Pool.step plan p) with
      | none =>
          refine ⟨⟨[], rfl⟩, ?_⟩
          by_contra hended
          obtain ⟨next, hsome⟩ := h.exists_nextEvent hthreads hroom (Bool.eq_false_iff.2 hended)
          rw [hnext] at hsome
          exact nomatch hsome
      | some next =>
          obtain ⟨e, -, hstep⟩ := Option.bind_eq_some_iff.1 hnext
          have hless := (next_of_step hstep).left_lt h
          obtain ⟨past', h'⟩ := h.next (next_of_step hstep)
          obtain ⟨⟨later, hlater⟩, hend⟩ := ih h' (by omega)
          refine ⟨⟨e :: later, ?_⟩, hend⟩
          rw [Pool.follow_cons, hstep]
          exact hlater

/-- **Class after class** is one of the orders in which a job can come to its end. -/
theorem Pool.run_ended (plan : Plan) (hthreads : 0 < plan.threads) (hroom : 0 < plan.capacity) :
    (∃ events, (initial plan).follow plan events = some (run plan)) ∧ (run plan).ended = true :=
  (sound_initial plan).runFrom_ended hthreads hroom (Nat.le_of_eq (left_initial plan))

end Nomenclator.Decompile
