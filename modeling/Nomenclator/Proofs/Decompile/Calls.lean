import Nomenclator.Proofs.Decompile.Progress

/-! # The pool — what its events say of the calls of the decompiler

    A call of the decompiler begins when its worker takes a permit and returns when
    the worker finishes it; a worker that is cancelled in between leaves its call
    alone.  So the events of a run tell which calls were made and which of them have
    returned (`Worker.Since`), and the state of the pool follows:

    * no more calls are under way than there are permits, until a worker is
      cancelled (`Traced.underway_le`);
    * a worker that ended with an error and was joined has given the job a failure
      (`Traced.failed`). -/

namespace Nomenclator.Decompile

variable {plan : Plan} {past : History} {p p' : Pool} {e : Event} {i : Nat} {events : List Event}

/-- What a worker can be about if its call has begun, or not, and has returned, or not. -/
def Worker.Since (began returned : Prop) : Worker → Prop
  | .waiting => ¬ began ∧ ¬ returned
  | .running => began ∧ ¬ returned
  | .cancelled => True
  | .returned _ | .recorded _ | .sending _ | .ended _ => began ∧ returned

/-- The calls that have begun and not returned. -/
def underway (events : List Event) (n : Nat) : List Nat :=
  (List.range n).filter fun i => .take i ∈ events ∧ .finish i ∉ events

/-- What the events of a run say of the pool to which they led. -/
structure Traced (plan : Plan) (events : List Event) (p : Pool) : Prop where
  calls : ∀ (i : Nat) (w : Worker), p.workers[i]? = some w →
    w.Since (.take i ∈ events) (.finish i ∈ events)
  permits : p.runningCount ≤ plan.threads
  failed : ∀ (i : Nat) (error : Error), i ∈ p.joined → p.workers[i]? = some (.ended (some error)) →
    p.failure.isSome = true

theorem traced_initial (plan : Plan) : Traced plan [] (Pool.initial plan) where
  calls i w hi := by
    obtain ⟨c, -, rfl⟩ := List.mem_map.1 (List.mem_of_getElem? hi)
    exact ⟨List.not_mem_nil, List.not_mem_nil⟩
  permits := by
    have hnone : (Pool.initial plan).runningCount = 0 := by
      rw [Pool.runningCount, List.countP_eq_zero]
      intro w hw
      obtain ⟨c, -, rfl⟩ := List.mem_map.1 hw
      decide
    rw [hnone]
    exact Nat.zero_le _
  failed _ _ hi := nomatch hi

-- ── One event ────────────────────────────────────────────────────────────────

theorem mem_concat_iff_of_ne {e' : Event} (h : e' ≠ e) : e' ∈ events ++ [e] ↔ e' ∈ events := by
  rw [List.mem_append, List.mem_singleton, or_iff_left h]

/-- An event that is not about a worker's call leaves the worker's account as it was. -/
theorem Worker.Since.concat {w : Worker} (h : w.Since (.take i ∈ events) (.finish i ∈ events))
    (htake : .take i ≠ e) (hfinish : .finish i ≠ e) :
    w.Since (.take i ∈ events ++ [e]) (.finish i ∈ events ++ [e]) := by
  rwa [mem_concat_iff_of_ne htake, mem_concat_iff_of_ne hfinish]

theorem Traced.calls_of_set (h : Traced plan events p) {w : Worker}
    (hworkers : p'.workers = p.workers.set i w)
    (hown : w.Since (.take i ∈ events ++ [e]) (.finish i ∈ events ++ [e]))
    (hother : ∀ j, j ≠ i → Event.take j ≠ e ∧ Event.finish j ≠ e) :
    ∀ (j : Nat) (v : Worker), p'.workers[j]? = some v →
      v.Since (.take j ∈ events ++ [e]) (.finish j ∈ events ++ [e]) := by
  intro j v hj
  rw [hworkers] at hj
  rcases getElem?_set_cases hj with ⟨rfl, rfl⟩ | ⟨hne, hj⟩
  · exact hown
  · exact (h.calls j v hj).concat (hother j hne).1 (hother j hne).2

/-- The number of workers inside the decompiler grows with one that enters it only. -/
theorem Pool.runningCount_set_le {w : Worker} (hworkers : p'.workers = p.workers.set i w) :
    p'.runningCount ≤ p.runningCount + if w = .running then 1 else 0 := by
  rw [runningCount, runningCount, hworkers]
  by_cases hi : i < p.workers.length
  · rw [List.countP_set hi]
    simp only [beq_iff_eq]
    exact Nat.add_le_add_right (Nat.sub_le _ _) _
  · rw [List.set_eq_of_length_le (Nat.not_lt.1 hi)]
    exact Nat.le_add_right _ _

/-- A worker that goes on, and does not enter the decompiler. -/
theorem Traced.set (h : Traced plan events p) (hsettled : Settled p) {w w' : Worker}
    (hi : p.workers[i]? = some w) (hlive : w.isOver = false)
    (hworkers : p'.workers = p.workers.set i w') (hrunning : w' ≠ .running)
    (hjoined : p'.joined = p.joined) (hfailure : p'.failure = p.failure)
    (hown : w'.Since (.take i ∈ events ++ [e]) (.finish i ∈ events ++ [e]))
    (hother : ∀ j, j ≠ i → Event.take j ≠ e ∧ Event.finish j ≠ e) :
    Traced plan (events ++ [e]) p' where
  calls := h.calls_of_set hworkers hown hother
  permits := by
    have hle := Pool.runningCount_set_le hworkers
    rw [if_neg hrunning] at hle
    exact Nat.le_trans hle h.permits
  failed j error hj hworker := by
    rw [hjoined] at hj
    obtain ⟨v, hv, hover⟩ := hsettled.joined j hj
    have hsame := getElem?_set_of_live hi hlive hv hover w'
    rw [← hworkers, hworker, Option.some.injEq] at hsame
    rw [hfailure]
    exact h.failed j error hj (hsame ▸ hv)

/-- An event of another party. -/
theorem Traced.same (h : Traced plan events p) (hworkers : p'.workers = p.workers)
    (hfailed : ∀ (i : Nat) (error : Error), i ∈ p'.joined →
      p'.workers[i]? = some (.ended (some error)) →
      p'.failure.isSome = true)
    (hother : ∀ j, Event.take j ≠ e ∧ Event.finish j ≠ e) : Traced plan (events ++ [e]) p' where
  calls i w hi := (h.calls i w (hworkers ▸ hi)).concat (hother i).1 (hother i).2
  permits := by
    rw [Pool.runningCount, hworkers]
    exact h.permits
  failed := hfailed

/-- A call returns. -/
theorem Traced.finished (h : Traced plan events p) (hsettled : Settled p) {w' : Worker}
    (hi : p.workers[i]? = some .running)
    (hworkers : p'.workers = p.workers.set i w') (hrunning : w' ≠ .running)
    (hjoined : p'.joined = p.joined) (hfailure : p'.failure = p.failure)
    (hown : ∀ {began returned : Prop}, began → returned → w'.Since began returned) :
    Traced plan (events ++ [.finish i]) p' := by
  obtain ⟨hbegan, -⟩ := h.calls i _ hi
  refine h.set hsettled hi rfl hworkers hrunning hjoined hfailure ?_ ?_
  · exact hown (List.mem_append_left _ hbegan) (List.mem_append_right _ List.mem_cons_self)
  · intro j hne
    exact ⟨nofun, fun heq => hne (Event.finish.inj heq)⟩

/-- A worker goes on after its call. -/
theorem Traced.goesOn (h : Traced plan events p) (hsettled : Settled p) {w w' : Worker}
    (hi : p.workers[i]? = some w) (hlive : w.isOver = false)
    (hworkers : p'.workers = p.workers.set i w') (hrunning : w' ≠ .running)
    (hjoined : p'.joined = p.joined) (hfailure : p'.failure = p.failure)
    (hown : ∀ {began returned : Prop}, w.Since began returned → w'.Since began returned)
    (hother : ∀ j, Event.take j ≠ e ∧ Event.finish j ≠ e) : Traced plan (events ++ [e]) p' := by
  refine h.set hsettled hi hlive hworkers hrunning hjoined hfailure ?_ fun j _ => hother j
  exact (hown (h.calls i w hi)).concat (hother i).1 (hother i).2

/-- **What an event leaves traced.** -/
theorem Traced.next (h : Traced plan events p) (hsettled : Settled p)
    (hnext : Next plan p e p') : Traced plan (events ++ [e]) p' := by
  cases hnext with
  | opened | notCreated | wrote | notWritten | closed =>
      exact h.same rfl h.failed fun j => ⟨nofun, nofun⟩
  | @took i hi hfree =>
      refine ⟨h.calls_of_set rfl ?_ ?_, ?_, ?_⟩
      · obtain ⟨-, hreturned⟩ := h.calls i _ hi
        have hne : Event.finish i ≠ .take i := nofun
        refine ⟨List.mem_append_right _ List.mem_cons_self, ?_⟩
        rwa [mem_concat_iff_of_ne hne]
      · intro j hne
        exact ⟨fun heq => hne (Event.take.inj heq), nofun⟩
      · have hle : ((p.setStage i .decompiling).setWorker i .running).runningCount
            ≤ p.runningCount + if Worker.running = .running then 1 else 0 :=
          Pool.runningCount_set_le rfl
        exact Nat.le_trans hle hfree
      · intro j error hj hworker
        rcases getElem?_set_cases hworker with ⟨-, hne⟩ | ⟨-, hworker⟩
        · exact nomatch hne
        · exact h.failed j error hj hworker
  | failed hi | skipped hi | returned hi =>
      exact h.finished hsettled hi rfl nofun rfl rfl fun hbegan hreturned => ⟨hbegan, hreturned⟩
  | @recorded i c hi =>
      obtain ⟨lines, hlines⟩ := exists_recordLines plan p i c
      rw [hlines]
      exact h.goesOn hsettled hi rfl rfl nofun rfl rfl (fun hw => hw) fun j => ⟨nofun, nofun⟩
  | queued hi | refused hi | sent hi =>
      exact h.goesOn hsettled hi rfl rfl nofun rfl rfl (fun hw => hw) fun j => ⟨nofun, nofun⟩
  | cancelled _ hi hlive =>
      exact h.goesOn hsettled hi hlive rfl nofun rfl rfl (fun _ => trivial) fun j => ⟨nofun, nofun⟩
  | @joined i error hnot hi =>
      refine h.same rfl (fun j error' hj hworker => ?_) fun j => ⟨nofun, nofun⟩
      rcases List.mem_cons.1 hj with rfl | hj
      · have hworker : p.workers[j]? = some (.ended (some error')) := hworker
        rw [hi, Option.some.injEq, Worker.ended.injEq] at hworker
        show (p.failure.or error).isSome = true
        rw [hworker, Option.isSome_or]
        exact Bool.or_true _
      · show (p.failure.or error).isSome = true
        rw [Option.isSome_or, h.failed j error' hj hworker]
        rfl
  | @joinedCancelled i hnot hi =>
      refine h.same rfl (fun j error' hj hworker => ?_) fun j => ⟨nofun, nofun⟩
      rcases List.mem_cons.1 hj with rfl | hj
      · exact nomatch hi.symm.trans hworker
      · exact h.failed j error' hj hworker

-- ── Many events ──────────────────────────────────────────────────────────────

theorem Traced.follow (h : Traced plan events p) (hsound : Sound plan past p) {later : List Event}
    (hrun : p.follow plan later = some p') : Traced plan (events ++ later) p' := by
  induction later generalizing p past events with
  | nil =>
      obtain rfl := Option.some.inj hrun
      rwa [List.append_nil]
  | cons e later ih =>
      rw [Pool.follow_cons] at hrun
      obtain ⟨next, hstep, hlater⟩ := Option.bind_eq_some_iff.1 hrun
      have hnext := next_of_step hstep
      have hrest := ih (h.next hsound.toSettled hnext) (hsound.after hnext) hlater
      rwa [List.append_assoc] at hrest

/-- **What a run leaves traced.** -/
theorem traced_of_follow (hrun : (Pool.initial plan).follow plan events = some p) :
    Traced plan events p :=
  (traced_initial plan).follow (sound_initial plan) hrun

/-- Workers are counted by their indices. -/
theorem Pool.runningCount_eq (p : Pool) :
    p.runningCount
      = ((List.range p.workers.length).filter fun i => p.workers[i]? == some .running).length := by
  have hindices : (List.range p.workers.length).map (fun i => p.workers[i]?)
      = p.workers.map some := by
    refine List.ext_getElem (by simp) fun i hi _ => ?_
    rw [List.length_map, List.length_range] at hi
    simp [hi]
  calc p.runningCount
      = (p.workers.map some).countP (· == some .running) := by
        rw [List.countP_map, runningCount]
        rfl
    _ = (List.range p.workers.length).countP fun i => p.workers[i]? == some .running := by
        rw [← hindices, List.countP_map]
        rfl
    _ = _ := List.countP_eq_length_filter ..

/-- No more calls are under way than there are permits, until a worker is cancelled. -/
theorem Traced.underway_le (h : Traced plan events p)
    (hcancelled : ∀ i : Nat, p.workers[i]? ≠ some .cancelled) :
    (underway events p.workers.length).length ≤ plan.threads := by
  have hrunning : underway events p.workers.length
      = (List.range p.workers.length).filter fun i => p.workers[i]? == some .running := by
    refine List.filter_congr fun i hi => ?_
    obtain ⟨w, hworker⟩ : ∃ w, p.workers[i]? = some w :=
      ⟨_, List.getElem?_eq_getElem (List.mem_range.1 hi)⟩
    have hsince := h.calls i w hworker
    rw [hworker]
    cases w with
    | cancelled => exact absurd hworker (hcancelled i)
    | running => exact decide_eq_true hsince
    | waiting => exact decide_eq_false fun hcall => hsince.1 hcall.1
    | returned | recorded | sending | ended => exact decide_eq_false fun hcall => hcall.2 hsince.2
  rw [hrunning, ← Pool.runningCount_eq]
  exact h.permits

end Nomenclator.Decompile
