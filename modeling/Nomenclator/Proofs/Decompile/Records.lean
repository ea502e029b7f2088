import Nomenclator.Proofs.Decompile.Calls
import Nomenclator.Proofs.Decompile.Outcome

/-! # Records — a pool whose parties keep a table of stages

    In a pool, an event moves its class on at once.  Here the parties are taken
    apart further: a worker or the writer acts, and only then enters the new stage of
    the class in the table that all of them share; the writer receives a source
    before it writes it, and what it has received takes no room in the channel.
    Between these steps anybody else may move.

    A `Shift` is a pool with that table, the entries that are still due, and what the
    writer holds.  Its pool makes a run of its own (`Shift.follow_pool`), and every
    run of a pool is a shift in which the records are made at once
    (`Shift.exists_moves`).  The heart is `Shift.Kept`: an entry that is due is
    strictly further than the one in the table, and where none is due the table says
    what the pool does, unless the worker was cancelled. -/

namespace Nomenclator.Decompile

variable {plan : Plan} {past : History} {p p' : Pool} {e : Event} {i : Nat}

-- ── What one event changes ───────────────────────────────────────────────────

/-- The stage that a party enters for a class after an event. -/
def Event.mark? (plan : Plan) (p p' : Pool) : Event → Option (Nat × Stage)
  | .take i => some (i, .decompiling)
  | .finish i => if (plan.error? i).isSome then none else some (i, .decompiled)
  | .queue i => some (i, .queuedForWrite)
  | .write =>
    if p'.writer.isBroken then none else p.channel.head?.map fun d => (d.index, .written)
  | _ => none

/-- Who enters a stage: the worker of the class, or the writer. -/
inductive Marks (p : Pool) (i : Nat) : Event → Stage → Prop where
  | worker {e : Event} {w : Worker} {s : Stage} : p.workers[i]? = some w → w.isOver = false →
      (e = .take i ∨ e = .finish i ∨ e = .queue i) → s ≠ .written → Marks p i e s
  | writer {d : Delivery} {later : List Delivery} : p.channel = d :: later → d.index = i →
      Marks p i .write .written

/-- A source in the channel waits to be written. -/
theorem Sound.stage_of_channel (h : Sound plan past p) {d : Delivery} (hd : d ∈ p.channel) :
    p.stages[d.index]? = some .queuedForWrite := by
  have hended := h.ended d (List.mem_append_right _ hd)
  obtain ⟨c, hc, heq⟩ := h.genuine.source d (List.mem_append_right _ hd)
  obtain ⟨s, hs, hfits⟩ := h.exists_stage hended
  cases hfits with
  | skipped hnone => exact nomatch hnone.symm.trans hc
  | sent | lost => exact hs
  | written hc' _ hwritten =>
      -- it would have been written twice
      obtain rfl := Option.some.inj (hc'.symm.trans hc)
      have hnodup := h.genuine.once
      rw [List.map_append, List.nodup_append] at hnodup
      exact absurd rfl (hnodup.2.2 d.index (List.mem_map.2 ⟨_, hwritten, rfl⟩) d.index
        (List.mem_map.2 ⟨_, hd, rfl⟩))

/-- **A stage that is entered lies ahead.** -/
theorem Next.marks (hnext : Next plan p e p') (h : Sound plan past p) {s : Stage}
    (hmark : e.mark? plan p p' = some (i, s)) :
    p'.stages = p.stages.set i s ∧ Marks p i e s
      ∧ ∃ s₀, p.stages[i]? = some s₀ ∧ s₀.rank < s.rank := by
  cases hnext with
  | took hi =>
      obtain ⟨rfl, rfl⟩ := hmark
      obtain ⟨s, hs, hfits⟩ := h.exists_stage hi
      cases hfits with
      | waiting => exact ⟨rfl, .worker hi rfl (.inl rfl) nofun, _, hs, by decide⟩
  | failed hi herror =>
      rw [Event.mark?, herror] at hmark
      exact nomatch hmark
  | skipped hi hnone herror =>
      rw [Event.mark?, herror] at hmark
      obtain ⟨rfl, rfl⟩ := hmark
      obtain ⟨s, hs, hfits⟩ := h.exists_stage hi
      cases hfits with
      | running => exact ⟨rfl, .worker hi rfl (.inr (.inl rfl)) nofun, _, hs, by decide⟩
  | returned hi hc =>
      rw [Event.mark?, Plan.error?_of_source? hc] at hmark
      obtain ⟨rfl, rfl⟩ := hmark
      obtain ⟨s, hs, hfits⟩ := h.exists_stage hi
      cases hfits with
      | running => exact ⟨rfl, .worker hi rfl (.inr (.inl rfl)) nofun, _, hs, by decide⟩
  | queued hi =>
      obtain ⟨rfl, rfl⟩ := hmark
      obtain ⟨s, hs, hfits⟩ := h.exists_stage hi
      cases hfits with
      | recorded => exact ⟨rfl, .worker hi rfl (.inr (.inr rfl)) nofun, _, hs, by decide⟩
  | @wrote w w' sources bytes d later hw hch hadd =>
      rw [Event.mark?, hch] at hmark
      obtain ⟨rfl, rfl⟩ := hmark
      have hd : d ∈ p.channel := by
        rw [hch]
        exact List.mem_cons_self
      exact ⟨rfl, .writer hch rfl, _, h.stage_of_channel hd, by decide⟩
  | opened | notCreated | recorded | refused | sent | notWritten | closed | joined
  | joinedCancelled | cancelled => exact nomatch hmark

/-- Where no stage is entered, all stay. -/
theorem Next.stages_eq (hnext : Next plan p e p') (hmark : e.mark? plan p p' = none) :
    p'.stages = p.stages := by
  cases hnext with
  | took | queued => exact nomatch hmark
  | skipped hi hnone herror =>
      rw [Event.mark?, herror] at hmark
      exact nomatch hmark
  | returned hi hc =>
      rw [Event.mark?, Plan.error?_of_source? hc] at hmark
      exact nomatch hmark
  | wrote hw hch hadd =>
      rw [Event.mark?, hch] at hmark
      exact nomatch hmark
  | @recorded i c =>
      obtain ⟨lines, hlines⟩ := exists_recordLines plan p i c
      rw [hlines]
      rfl
  | opened | notCreated | failed | refused | sent | notWritten | closed | joined | joinedCancelled
  | cancelled => rfl

/-- A worker that is over stays as it is. -/
theorem Next.over_stays (hnext : Next plan p e p') {w : Worker} (hi : p.workers[i]? = some w)
    (hover : w.isOver = true) : p'.workers[i]? = some w := by
  cases hnext with
  | opened | notCreated | wrote | notWritten | closed | joined | joinedCancelled => exact hi
  | took hj | failed hj | skipped hj | returned hj | queued hj | refused hj | sent hj =>
      exact getElem?_set_of_live hj rfl hi hover _
  | cancelled _ hj hlive => exact getElem?_set_of_live hj hlive hi hover _
  | @recorded j c hj =>
      obtain ⟨lines, hlines⟩ := exists_recordLines plan p j c
      rw [hlines]
      exact getElem?_set_of_live hj rfl hi hover _

/-- What is in the channel was there, or has just been sent. -/
theorem Next.channel_cases (hnext : Next plan p e p') {d : Delivery} (hd : d ∈ p'.channel) :
    d ∈ p.channel ∨ e = .send d.index ∧ ∃ c, p.workers[d.index]? = some (.sending c) := by
  cases hnext with
  | sent hi =>
      rcases List.mem_append.1 hd with hd | hd
      · exact .inl hd
      · rw [List.mem_singleton.1 hd]
        exact .inr ⟨rfl, _, hi⟩
  | wrote hw hch =>
      rw [hch]
      exact .inl (List.mem_cons_of_mem _ hd)
  | notWritten => exact nomatch hd
  | @recorded i c =>
      obtain ⟨lines, hlines⟩ := exists_recordLines plan p i c
      rw [hlines] at hd
      exact .inl hd
  | opened | notCreated | took | failed | skipped | returned | queued | refused | closed | joined
  | joinedCancelled | cancelled => exact .inl hd

theorem Next.joined_cases (hnext : Next plan p e p') (hi : i ∈ p'.joined) :
    i ∈ p.joined ∨ e = .join i := by
  cases hnext with
  | joined | joinedCancelled =>
      rcases List.mem_cons.1 hi with rfl | hi
      · exact .inr rfl
      · exact .inl hi
  | @recorded j c =>
      obtain ⟨lines, hlines⟩ := exists_recordLines plan p j c
      rw [hlines] at hi
      exact .inl hi
  | opened | notCreated | took | failed | skipped | returned | queued | refused | sent | wrote
  | notWritten | closed | cancelled => exact .inl hi

/-- Is the writer at work? -/
def WriterState.isReady : WriterState → Bool
  | .ready .. => true
  | _ => false

/-- A writer at work stays so until it writes or is closed. -/
theorem Next.ready_stays (hnext : Next plan p e p') (hready : p.writer.isReady = true)
    (hwrite : e ≠ .write) (hclose : e ≠ .closeWriter) : p'.writer.isReady = true := by
  cases hnext with
  | opened hw | notCreated hw =>
      rw [hw] at hready
      exact nomatch hready
  | wrote | notWritten => exact absurd rfl hwrite
  | closed => exact absurd rfl hclose
  | @recorded j c =>
      obtain ⟨lines, hlines⟩ := exists_recordLines plan p j c
      rw [hlines]
      exact hready
  | took | failed | skipped | returned | queued | refused | sent | joined | joinedCancelled
  | cancelled => exact hready

theorem Next.ready_of_written (hnext : Next plan p .write p') {mark : Nat × Stage}
    (hmark : Event.mark? plan p p' .write = some mark) : p'.writer.isReady = true := by
  cases hnext with
  | wrote => rfl
  | notWritten => exact nomatch hmark

-- ── Shifts ───────────────────────────────────────────────────────────────────

/-- The plan of a pool that counts what the writer has received as if it were in the channel. -/
def Plan.roomier (plan : Plan) : Plan := { plan with capacity := plan.capacity + 1 }

/-- A pool with the table of stages that its parties share: what is entered there, the entries
    that are still due, and whether the writer has received the first source of the channel. -/
structure Shift where
  pool : Pool
  past : History := {}
  table : List Stage
  due : List (Nat × Stage) := []
  received : Bool := false
  deriving DecidableEq

/-- What can happen next: a party acts, the writer receives a source, or an entry is made. -/
inductive Move where
  | act (e : Event)
  | receive
  | enter (i : Nat) (s : Stage)
  deriving DecidableEq, Repr

/-- The events among moves. -/
def acts (moves : List Move) : List Event :=
  moves.filterMap fun
    | .act e => some e
    | _ => none

namespace Shift

/-- All classes queued, no worker started. -/
def initial (plan : Plan) : Shift :=
  { pool := Pool.initial plan, table := (Pool.initial plan).stages }

/-- Has a worker still to enter the stage of its class? -/
def workerOwes (shift : Shift) (i : Nat) : Bool :=
  shift.due.any fun mark => mark.1 == i && mark.2 != .written

/-- Has the writer still to enter that a class is written? -/
def writerOwes (shift : Shift) : Bool := shift.due.any fun mark => mark.2 == .written

/-- Is a party free to act? Entries come first; the writer writes what it has received, and
    closes when no sender is left. -/
def mayAct (plan : Plan) (shift : Shift) : Event → Bool
  | .take i | .finish i | .record i | .queue i | .join i => !shift.workerOwes i
  | .send i =>
    !shift.workerOwes i && (shift.pool.writer.isOver
      || decide (shift.pool.channel.length < plan.capacity + shift.received.toNat))
  | .write => shift.received
  | .closeWriter => shift.due.isEmpty
  | .openWriter | .cancel _ => true

/-- The shift after an event that leads to a pool. The entry of a worker that is cancelled is
    never made. -/
def acted (plan : Plan) (shift : Shift) (e : Event) (pool : Pool) : Shift :=
  { pool
    past := shift.past.after shift.pool pool e
    table := shift.table
    due := (e.mark? plan shift.pool pool).toList
      ++ shift.due.filter fun mark => e != .cancel mark.1
    received := shift.received && e != .write }

/-- What a move does; `none` if it cannot be made. -/
def step (plan : Plan) (shift : Shift) : Move → Option Shift
  | .act e =>
    if shift.mayAct plan e then
      (Pool.step plan.roomier shift.pool e).map (shift.acted plan e)
    else none
  | .receive =>
    if shift.pool.writer.isReady && !shift.pool.channel.isEmpty && !shift.received
        && !shift.writerOwes then
      some { shift with received := true }
    else none
  | .enter i s =>
    if (i, s) ∈ shift.due then
      some { shift with table := shift.table.set i s, due := shift.due.erase (i, s) }
    else none

/-- The shift after moves, if they can be made one after the other. -/
def follow (plan : Plan) (shift : Shift) (moves : List Move) : Option Shift :=
  moves.foldlM (step plan) shift

/-- What a shift that has come to its end reports: it looks at the table. -/
def outcome (shift : Shift) : Except Error (SourceWriter × Nat × Nat) :=
  { shift.pool with stages := shift.table }.outcome

variable {shift next : Shift} {moves : List Move}

theorem follow_cons (move : Move) (later : List Move) :
    shift.follow plan (move :: later)
      = (shift.step plan move).bind fun next => next.follow plan later :=
  List.foldlM_cons ..

theorem follow_append (moves later : List Move) :
    shift.follow plan (moves ++ later)
      = (shift.follow plan moves).bind fun next => next.follow plan later :=
  List.foldlM_append

/-- What a move makes of a shift in which it can be made. -/
inductive Makes (plan : Plan) (shift : Shift) : Move → Shift → Prop where
  | acted {e : Event} {pool : Pool} : shift.mayAct plan e = true →
      Next plan.roomier shift.pool e pool → Makes plan shift (.act e) (shift.acted plan e pool)
  | received : (∀ i, (i, Stage.written) ∉ shift.due) →
      Makes plan shift .receive { shift with received := true }
  | entered {i : Nat} {s : Stage} : (i, s) ∈ shift.due →
      Makes plan shift (.enter i s)
        { shift with table := shift.table.set i s, due := shift.due.erase (i, s) }

theorem writerOwes_eq_false : shift.writerOwes = false ↔ ∀ i, (i, Stage.written) ∉ shift.due := by
  rw [writerOwes, List.any_eq_false]
  constructor
  · intro h i hi
    exact h _ hi (beq_self_eq_true _)
  · rintro h ⟨i, s⟩ hmem hs
    exact h i (eq_of_beq hs ▸ hmem)

theorem makes_of_step {move : Move} (h : shift.step plan move = some next) :
    Makes plan shift move next := by
  cases move with
  | act e =>
      rw [step] at h
      split at h
      · next hmay =>
        obtain ⟨pool, hstep, rfl⟩ := Option.map_eq_some_iff.1 h
        exact .acted hmay (next_of_step hstep)
      · exact nomatch h
  | receive =>
      rw [step] at h
      split at h
      · next hall =>
        obtain ⟨-, howes⟩ := Bool.and_eq_true_iff.1 hall
        exact Option.some.inj h ▸
          .received (writerOwes_eq_false.1 (Eq.mp (Bool.not_eq_true' _) howes))
      · exact nomatch h
  | enter i s =>
      rw [step] at h
      split at h
      · next hdue => exact Option.some.inj h ▸ .entered hdue
      · exact nomatch h

/-- The pool of a shift makes a run of its own. -/
theorem follow_pool (hrun : shift.follow plan moves = some next) :
    shift.pool.follow plan.roomier (acts moves) = some next.pool := by
  induction moves generalizing shift with
  | nil =>
      obtain rfl := Option.some.inj hrun
      rfl
  | cons move later ih =>
      rw [follow_cons] at hrun
      obtain ⟨middle, hstep, hlater⟩ := Option.bind_eq_some_iff.1 hrun
      have hrest := ih hlater
      cases move with
      | act e =>
          rw [step] at hstep
          split at hstep
          · obtain ⟨pool, hpool, rfl⟩ := Option.map_eq_some_iff.1 hstep
            show shift.pool.follow plan.roomier (e :: acts later) = _
            rw [Pool.follow_cons, hpool]
            exact hrest
          · exact nomatch hstep
      | receive | enter =>
          have hsame : middle.pool = shift.pool := by
            cases makes_of_step hstep
            rfl
          rw [← hsame]
          exact hrest

-- ── The table keeps up ───────────────────────────────────────────────────────

/-- **How the table and the pool go together.** -/
structure Kept (plan : Plan) (shift : Shift) : Prop where
  sound : Sound plan.roomier shift.past shift.pool
  ahead : ∀ i s, (i, s) ∈ shift.due → shift.pool.stages[i]? = some s
    ∧ ∃ s₀, shift.table[i]? = some s₀ ∧ s₀.rank < s.rank
  once : (shift.due.map Prod.fst).Nodup
  table : ∀ i, (∀ s, (i, s) ∉ shift.due) → shift.table[i]? = shift.pool.stages[i]?
    ∨ shift.pool.workers[i]? = some .cancelled
  joined : ∀ i s, (i, s) ∈ shift.due → i ∈ shift.pool.joined → s = .written
  late : ∀ i, (i, .written) ∈ shift.due →
    shift.received = false ∧ shift.pool.writer.isReady = true
  channel : ∀ d ∈ shift.pool.channel, ∀ s, (d.index, s) ∉ shift.due

theorem kept_initial (plan : Plan) : Kept plan (initial plan) where
  sound := sound_initial plan.roomier
  ahead _ _ h := nomatch h
  once := List.nodup_nil
  table _ _ := .inl rfl
  joined _ _ h := nomatch h
  late _ h := nomatch h
  channel _ h := nomatch h

theorem workerOwes_eq_false :
    shift.workerOwes i = false ↔ ∀ s, (i, s) ∈ shift.due → s = .written := by
  rw [workerOwes, List.any_eq_false]
  constructor
  · intro h s hmem
    have hmark := h _ hmem
    simpa using hmark
  · rintro h ⟨j, s⟩ hmem hs
    simp only [Bool.and_eq_true, beq_iff_eq, bne_iff_ne, ne_eq] at hs
    obtain ⟨rfl, hs⟩ := hs
    exact hs (h s hmem)

/-- A worker that is under way and free to act owes no entry, and neither does the writer for
    its class. -/
theorem Kept.not_due (h : Kept plan shift) {w : Worker} (hi : shift.pool.workers[i]? = some w)
    (hlive : w.isOver = false) (hfree : shift.workerOwes i = false) (s : Stage) :
    (i, s) ∉ shift.due := by
  intro hmem
  obtain rfl := workerOwes_eq_false.1 hfree s hmem
  have hstage := (h.ahead i _ hmem).1
  exact (h.sound.fits i w _ hi hstage).ne_written hlive rfl

section Act

variable {pool : Pool} {s : Stage}

/-- For a class whose stage changes, nothing else is due, and the table is up to date. -/
theorem Kept.fresh (h : Kept plan shift) (hmay : shift.mayAct plan e = true)
    (hmarks : Marks shift.pool i e s) :
    (∀ s', (i, s') ∉ shift.due) ∧ shift.table[i]? = shift.pool.stages[i]? := by
  cases hmarks with
  | worker hi hlive hevent =>
      have hfree : shift.workerOwes i = false := by
        rcases hevent with rfl | rfl | rfl <;> exact Eq.mp (Bool.not_eq_true' _) hmay
      have hnot := h.not_due hi hlive hfree
      refine ⟨hnot, (h.table i hnot).resolve_right fun hcancelled => ?_⟩
      obtain rfl := Option.some.inj (hi.symm.trans hcancelled)
      exact nomatch hlive
  | @writer d later hch hd =>
      subst hd
      have hmem : d ∈ shift.pool.channel := by
        rw [hch]
        exact List.mem_cons_self
      have hnot := h.channel d hmem
      refine ⟨hnot, (h.table _ hnot).resolve_right fun hcancelled => ?_⟩
      have hended := h.sound.ended d (List.mem_append_right _ hmem)
      exact nomatch hended.symm.trans hcancelled

theorem mem_due_acted {mark : Nat × Stage} : mark ∈ (shift.acted plan e pool).due
    ↔ e.mark? plan shift.pool pool = some mark ∨ (mark ∈ shift.due ∧ e ≠ .cancel mark.1) := by
  show mark ∈ _ ++ shift.due.filter _ ↔ _
  rw [List.mem_append, Option.mem_toList, List.mem_filter, bne_iff_ne]

/-- The stage of a class stays as it is while nothing is entered for it. -/
theorem Kept.stage_of_not_marked (h : Kept plan shift)
    (hnext : Next plan.roomier shift.pool e pool)
    (hmark : ∀ s, e.mark? plan shift.pool pool ≠ some (i, s)) :
    pool.stages[i]? = shift.pool.stages[i]? := by
  cases hmark' : e.mark? plan shift.pool pool with
  | none => rw [hnext.stages_eq hmark']
  | some mark =>
      obtain ⟨j, s⟩ := mark
      rw [(hnext.marks h.sound hmark').1]
      refine List.getElem?_set_ne ?_
      rintro rfl
      exact hmark s hmark'

theorem Kept.ahead_acted (h : Kept plan shift) (hmay : shift.mayAct plan e = true)
    (hnext : Next plan.roomier shift.pool e pool) (hdue : (i, s) ∈ (shift.acted plan e pool).due) :
    pool.stages[i]? = some s ∧ ∃ s₀, shift.table[i]? = some s₀ ∧ s₀.rank < s.rank := by
  rcases mem_due_acted.1 hdue with hmark | ⟨hold, -⟩
  · obtain ⟨hset, hmarks, s₀, hs₀, hrank⟩ := hnext.marks h.sound hmark
    refine ⟨?_, s₀, (h.fresh hmay hmarks).2.trans hs₀, hrank⟩
    rw [hset]
    exact List.getElem?_set_self (List.getElem?_eq_some_iff.1 hs₀).1
  · obtain ⟨hstage, hrank⟩ := h.ahead i s hold
    refine ⟨(h.stage_of_not_marked hnext fun s' hmark => ?_).trans hstage, hrank⟩
    exact (h.fresh hmay (hnext.marks h.sound hmark).2.1).1 s hold

theorem Kept.once_acted (h : Kept plan shift) (hmay : shift.mayAct plan e = true)
    (hnext : Next plan.roomier shift.pool e pool) :
    ((shift.acted plan e pool).due.map Prod.fst).Nodup := by
  have hfilter : ((shift.due.filter fun mark => e != .cancel mark.1).map Prod.fst).Nodup :=
    h.once.sublist (List.filter_sublist.map _)
  show (((e.mark? plan shift.pool pool).toList ++ _).map Prod.fst).Nodup
  cases hmark : e.mark? plan shift.pool pool with
  | none => exact hfilter
  | some mark =>
      obtain ⟨i, s⟩ := mark
      refine List.nodup_cons.2 ⟨fun hmem => ?_, hfilter⟩
      obtain ⟨⟨j, s'⟩, hold, rfl⟩ := List.mem_map.1 hmem
      exact (h.fresh hmay (hnext.marks h.sound hmark).2.1).1 s' (List.mem_of_mem_filter hold)

theorem Kept.table_acted (h : Kept plan shift) (hnext : Next plan.roomier shift.pool e pool)
    (hnot : ∀ s, (i, s) ∉ (shift.acted plan e pool).due) :
    shift.table[i]? = pool.stages[i]? ∨ pool.workers[i]? = some .cancelled := by
  by_cases hcancel : e = .cancel i
  · subst hcancel
    cases hnext with
    | cancelled _ hi => exact .inr (List.getElem?_set_self (List.getElem?_eq_some_iff.1 hi).1)
  · have hmark : ∀ s, e.mark? plan shift.pool pool ≠ some (i, s) :=
      fun s hmark => hnot s (mem_due_acted.2 (.inl hmark))
    have hold : ∀ s, (i, s) ∉ shift.due :=
      fun s hold => hnot s (mem_due_acted.2 (.inr ⟨hold, hcancel⟩))
    rw [h.stage_of_not_marked hnext hmark]
    exact (h.table i hold).imp_right fun hworker => hnext.over_stays hworker rfl

theorem Kept.joined_acted (h : Kept plan shift) (hmay : shift.mayAct plan e = true)
    (hnext : Next plan.roomier shift.pool e pool) (hdue : (i, s) ∈ (shift.acted plan e pool).due)
    (hjoined : i ∈ pool.joined) : s = .written := by
  rcases hnext.joined_cases hjoined with hbefore | rfl
  · rcases mem_due_acted.1 hdue with hmark | ⟨hold, -⟩
    · cases (hnext.marks h.sound hmark).2.1 with
      | writer => rfl
      | worker hi hlive =>
          obtain ⟨w, hw, hover⟩ := h.sound.joined i hbefore
          exact absurd rfl (ne_of_live hi hlive hw hover)
    · exact h.joined i s hold hbefore
  · rcases mem_due_acted.1 hdue with hmark | ⟨hold, -⟩
    · exact nomatch hmark
    · exact workerOwes_eq_false.1 (Eq.mp (Bool.not_eq_true' _) hmay) s hold

theorem Kept.late_acted (h : Kept plan shift) (hmay : shift.mayAct plan e = true)
    (hnext : Next plan.roomier shift.pool e pool)
    (hdue : (i, .written) ∈ (shift.acted plan e pool).due) :
    (shift.acted plan e pool).received = false ∧ pool.writer.isReady = true := by
  rcases mem_due_acted.1 hdue with hmark | ⟨hold, -⟩
  · cases (hnext.marks h.sound hmark).2.1 with
    | writer => exact ⟨Bool.and_false _, hnext.ready_of_written hmark⟩
    | worker _ _ _ hne => exact absurd rfl hne
  · obtain ⟨hreceived, hready⟩ := h.late i hold
    refine ⟨by show (shift.received && _) = false; rw [hreceived]; rfl,
      hnext.ready_stays hready ?_ ?_⟩
    · rintro rfl
      exact nomatch hreceived.symm.trans hmay
    · rintro rfl
      rw [List.isEmpty_iff.1 hmay] at hold
      exact nomatch hold

theorem Kept.channel_acted (h : Kept plan shift) (hmay : shift.mayAct plan e = true)
    (hnext : Next plan.roomier shift.pool e pool) {d : Delivery} (hd : d ∈ pool.channel) :
    (d.index, s) ∉ (shift.acted plan e pool).due := by
  intro hdue
  rcases hnext.channel_cases hd with hold | ⟨rfl, c, hsending⟩
  · rcases mem_due_acted.1 hdue with hmark | ⟨hdue, -⟩
    · cases (hnext.marks h.sound hmark).2.1 with
      | worker hi hlive =>
          have hended := h.sound.ended d (List.mem_append_right _ hold)
          exact absurd rfl (ne_of_live hi hlive hended rfl)
      | @writer d₀ later hch hindex =>
          -- what is left in the channel has another index than what was written
          have hnodup : (shift.pool.channel.map Delivery.index).Nodup := by
            have hall := h.sound.genuine.once
            rw [List.map_append, List.nodup_append] at hall
            exact hall.2.1
          rw [hch, List.map_cons, List.nodup_cons] at hnodup
          cases hnext with
          | notWritten => exact nomatch hd
          | wrote _ hch' =>
              obtain ⟨rfl, rfl⟩ := List.cons.inj (hch.symm.trans hch')
              exact hnodup.1 (hindex ▸ List.mem_map.2 ⟨d, hd, rfl⟩)
    · exact h.channel d hold s hdue
  · rcases mem_due_acted.1 hdue with hmark | ⟨hdue, -⟩
    · exact nomatch hmark
    · obtain ⟨hfree, -⟩ := Bool.and_eq_true_iff.1 hmay
      exact h.not_due hsending rfl (Eq.mp (Bool.not_eq_true' _) hfree) s hdue

theorem Kept.act (h : Kept plan shift) (hmay : shift.mayAct plan e = true)
    (hnext : Next plan.roomier shift.pool e pool) : Kept plan (shift.acted plan e pool) where
  sound := h.sound.after hnext
  ahead _ _ hdue := h.ahead_acted hmay hnext hdue
  once := h.once_acted hmay hnext
  table _ hnot := h.table_acted hnext hnot
  joined _ _ hdue hjoined := h.joined_acted hmay hnext hdue hjoined
  late _ hdue := h.late_acted hmay hnext hdue
  channel _ hd _ := h.channel_acted hmay hnext hd

end Act

theorem Kept.receive (h : Kept plan shift) (howes : ∀ i, (i, Stage.written) ∉ shift.due) :
    Kept plan { shift with received := true } where
  sound := h.sound
  ahead := h.ahead
  once := h.once
  table := h.table
  joined := h.joined
  late i hdue := absurd hdue (howes i)
  channel := h.channel

/-- Entries for different classes are all that is due. -/
theorem Kept.mem_erase (h : Kept plan shift) {s : Stage} (hdue : (i, s) ∈ shift.due) {j : Nat}
    {t : Stage} : (j, t) ∈ shift.due.erase (i, s) ↔ j ≠ i ∧ (j, t) ∈ shift.due := by
  rw [(List.Nodup.of_map _ h.once).mem_erase_iff]
  refine and_congr_left fun hmem => not_congr ⟨?_, ?_⟩
  · exact fun heq => congrArg Prod.fst heq
  · rintro rfl
    exact List.inj_on_of_nodup_map h.once hmem hdue rfl

theorem Kept.enter (h : Kept plan shift) {s : Stage} (hdue : (i, s) ∈ shift.due) :
    Kept plan { shift with table := shift.table.set i s, due := shift.due.erase (i, s) } where
  sound := h.sound
  ahead j t hold := by
    obtain ⟨hne, hold⟩ := (h.mem_erase hdue).1 hold
    obtain ⟨hstage, hrank⟩ := h.ahead j t hold
    refine ⟨hstage, ?_⟩
    show ∃ s₀, (shift.table.set i s)[j]? = some s₀ ∧ _
    rwa [List.getElem?_set_ne (Ne.symm hne)]
  once := h.once.sublist (List.erase_sublist.map _)
  table j hnot := by
    show (shift.table.set i s)[j]? = _ ∨ _
    by_cases hj : j = i
    · subst hj
      obtain ⟨hstage, s₀, hs₀, -⟩ := h.ahead j s hdue
      exact .inl ((List.getElem?_set_self (List.getElem?_eq_some_iff.1 hs₀).1).trans hstage.symm)
    · rw [List.getElem?_set_ne (Ne.symm hj)]
      exact h.table j fun t hold => hnot t ((h.mem_erase hdue).2 ⟨hj, hold⟩)
  joined j t hold := h.joined j t ((h.mem_erase hdue).1 hold).2
  late j hold := h.late j ((h.mem_erase hdue).1 hold).2
  channel d hd t hold := h.channel d hd t ((h.mem_erase hdue).1 hold).2

/-- **What a move keeps.** -/
theorem Kept.move (h : Kept plan shift) {move : Move} (hmakes : Makes plan shift move next) :
    Kept plan next := by
  cases hmakes with
  | acted hmay hnext => exact h.act hmay hnext
  | received howes => exact h.receive howes
  | entered hdue => exact h.enter hdue

/-- **What a run keeps.** -/
theorem Kept.follow (h : Kept plan shift) (hrun : shift.follow plan moves = some next) :
    Kept plan next := by
  induction moves generalizing shift with
  | nil => exact Option.some.inj hrun ▸ h
  | cons move later ih =>
      rw [follow_cons] at hrun
      obtain ⟨middle, hstep, hlater⟩ := Option.bind_eq_some_iff.1 hrun
      exact ih (h.move (makes_of_step hstep)) hlater

-- ── Every run of a pool is a shift ───────────────────────────────────────────

/-- Every entry has been made. -/
structure UpToDate (shift : Shift) : Prop where
  due : shift.due = []
  table : shift.table = shift.pool.stages

theorem step_roomier (h : Pool.step plan p e = some p') : Pool.step plan.roomier p e = some p' := by
  cases e with
  | send i =>
      rw [Pool.step] at h ⊢
      split at h
      · next c hi =>
        rw [Pool.deliver] at h ⊢
        split at h
        · exact h
        · exact h
        · split at h
          · next hroom =>
            have hroom' : p.channel.length < plan.roomier.capacity := Nat.lt_succ_of_lt hroom
            rw [if_pos hroom']
            exact h
          · cases h
      · cases h
  | _ => exact h

/-- An event, and then the entry that is due after it. -/
theorem UpToDate.exists_act {pool : Pool} (h : shift.UpToDate) (hkept : Kept plan shift)
    (hmay : shift.mayAct plan e = true) (hstep : Pool.step plan.roomier shift.pool e = some pool) :
    ∃ moves next, shift.follow plan moves = some next ∧ acts moves = [e] ∧ next.pool = pool
      ∧ next.UpToDate ∧ next.received = (shift.received && e != .write) := by
  have hnext := next_of_step hstep
  have hact : shift.step plan (.act e) = some (shift.acted plan e pool) := by
    rw [step, if_pos hmay, hstep, Option.map_some]
  have hdue : (shift.acted plan e pool).due = (e.mark? plan shift.pool pool).toList := by
    rw [acted, h.due]
    exact List.append_nil _
  cases hmark : e.mark? plan shift.pool pool with
  | none =>
      refine ⟨[.act e], shift.acted plan e pool, ?_, rfl, rfl, ⟨?_, ?_⟩, rfl⟩
      · rw [follow_cons, hact]
        rfl
      · rw [hdue, hmark]
        rfl
      · exact h.table.trans (hnext.stages_eq hmark).symm
  | some mark =>
      obtain ⟨i, s⟩ := mark
      rw [hmark] at hdue
      refine ⟨[.act e, .enter i s], { shift.acted plan e pool with
        table := shift.table.set i s, due := [] }, ?_, rfl, rfl, ⟨rfl, ?_⟩, rfl⟩
      · rw [follow_cons, hact, Option.bind_some, follow_cons, step, hdue]
        simp [follow, acted]
      · rw [h.table]
        exact (hnext.marks hkept.sound hmark).1.symm

theorem UpToDate.mayAct (h : shift.UpToDate) (hreceived : shift.received = false)
    (hnext : Next plan shift.pool e p') (hwrite : e ≠ .write) : shift.mayAct plan e = true := by
  have howes : ∀ i, shift.workerOwes i = false := by
    intro i
    rw [workerOwes, h.due]
    rfl
  cases hnext with
  | wrote | notWritten => exact absurd rfl hwrite
  | closed => rw [Shift.mayAct, h.due]; rfl
  | refused _ hover => rw [Shift.mayAct, howes, hover]; rfl
  | sent _ hopen hroom =>
      rw [Shift.mayAct, howes, hopen, hreceived]
      exact decide_eq_true hroom
  | opened | notCreated | cancelled => rfl
  | took | failed | skipped | returned | recorded | queued | joined | joinedCancelled =>
      rw [Shift.mayAct, howes]
      rfl

theorem UpToDate.receive (h : shift.UpToDate) (hreceived : shift.received = false)
    (hnext : Next plan shift.pool .write p') :
    shift.step plan .receive = some { shift with received := true } := by
  have howes : shift.writerOwes = false := by
    rw [writerOwes, h.due]
    rfl
  cases hnext with
  | wrote hw hch | notWritten hw hch =>
      rw [step, howes, hreceived, hw, hch]
      rfl

theorem UpToDate.exists_moves (h : shift.UpToDate) (hreceived : shift.received = false)
    (hkept : Kept plan shift) {events : List Event}
    (hrun : shift.pool.follow plan events = some p') :
    ∃ moves next, shift.follow plan moves = some next ∧ acts moves = events ∧ next.pool = p'
      ∧ next.UpToDate := by
  induction events generalizing shift with
  | nil =>
      obtain rfl := Option.some.inj hrun
      exact ⟨[], shift, rfl, rfl, rfl, h⟩
  | cons e later ih =>
      rw [Pool.follow_cons] at hrun
      obtain ⟨pool, hstep, hlater⟩ := Option.bind_eq_some_iff.1 hrun
      have hone : ∃ moves next, shift.follow plan moves = some next ∧ acts moves = [e]
          ∧ next.pool = pool ∧ next.UpToDate ∧ next.received = false := by
        by_cases hwrite : e = .write
        · subst hwrite
          have hreceive := h.receive hreceived (next_of_step hstep)
          have hholding : UpToDate { shift with received := true } := ⟨h.due, h.table⟩
          obtain ⟨moves, next, hmoves, hacts, hpool, hdone, hfalse⟩ :=
            hholding.exists_act (hkept.move (makes_of_step hreceive)) rfl (step_roomier hstep)
          refine ⟨.receive :: moves, next, ?_, hacts, hpool, hdone, hfalse⟩
          rw [follow_cons, hreceive]
          exact hmoves
        · have hmay := h.mayAct hreceived (next_of_step hstep) hwrite
          obtain ⟨moves, next, hmoves, hacts, hpool, hdone, hfalse⟩ :=
            h.exists_act hkept hmay (step_roomier hstep)
          exact ⟨moves, next, hmoves, hacts, hpool, hdone, by rw [hfalse, hreceived]; rfl⟩
      obtain ⟨moves, next, hmoves, hacts, rfl, hdone, hfalse⟩ := hone
      obtain ⟨moves', last, hmoves', hacts', hpool, hlast⟩ :=
        ih hdone hfalse (hkept.follow hmoves) hlater
      refine ⟨moves ++ moves', last, ?_, ?_, hpool, hlast⟩
      · rw [follow_append, hmoves]
        exact hmoves'
      · rw [acts, List.filterMap_append]
        exact congrArg₂ (· ++ ·) hacts hacts'

/-- **Every run of a pool is a shift** in which entries are made at once. -/
theorem exists_moves {events : List Event}
    (hrun : (Pool.initial plan).follow plan events = some p) :
    ∃ moves shift, (initial plan).follow plan moves = some shift ∧ acts moves = events
      ∧ shift.pool = p ∧ shift.UpToDate :=
  UpToDate.exists_moves ⟨rfl, rfl⟩ rfl (kept_initial plan) hrun

-- ── At the end ───────────────────────────────────────────────────────────────

/-- Where all workers are joined and the writer has finished, every entry has been made. -/
theorem Kept.due_eq_nil (h : Kept plan shift) (hjoined : shift.pool.allJoined = true)
    (hover : shift.pool.writer.isReady = false) : shift.due = [] := by
  refine List.eq_nil_iff_forall_not_mem.2 ?_
  rintro ⟨i, s⟩ hdue
  have hstage := (h.ahead i s hdue).1
  have hlt : i < shift.pool.workers.length := by
    rw [h.sound.workers_length, ← h.sound.stages_length]
    exact (List.getElem?_eq_some_iff.1 hstage).1
  have hi : i ∈ shift.pool.joined :=
    List.contains_iff_mem.1 (List.all_eq_true.1 hjoined i (List.mem_range.2 hlt))
  obtain rfl := h.joined i s hdue hi
  exact nomatch hover.symm.trans (h.late i hdue).2

/-- Where every entry has been made and no worker was cancelled, the table says what the pool
    does. -/
theorem Kept.table_eq (h : Kept plan shift) (hdue : shift.due = [])
    (hcancelled : ∀ i : Nat, shift.pool.workers[i]? ≠ some .cancelled) :
    shift.table = shift.pool.stages := by
  refine List.ext_getElem? fun i => (h.table i fun s hs => ?_).resolve_right (hcancelled i)
  rw [hdue] at hs
  exact nomatch hs

/-- All workers have ended well, and so has the writer. -/
structure EndsWell (shift : Shift) (w : SourceWriter) (sources bytes : Nat) : Prop where
  joined : shift.pool.allJoined = true
  workers : ∀ v ∈ shift.pool.workers, v = .ended none
  writer : shift.pool.writer = .finished w sources bytes

section EndsWell

variable {w : SourceWriter} {sources bytes : Nat}

theorem EndsWell.table_eq (h : shift.EndsWell w sources bytes) (hkept : Kept plan shift) :
    shift.table = shift.pool.stages := by
  refine hkept.table_eq (hkept.due_eq_nil h.joined ?_) fun i hi => ?_
  · rw [h.writer]
    rfl
  · exact nomatch h.workers _ (List.mem_of_getElem? hi)

/-- At a good end, a class is written, or the decompiler made nothing of it. -/
theorem EndsWell.stages (h : shift.EndsWell w sources bytes) (hkept : Kept plan shift)
    {c : ClassContext × Bytes} (hc : plan.classes[i]? = some c) :
    (shift.table[i]? = some .written ∧ ∃ source, plan.answer c = .source source)
      ∨ (shift.table[i]? = some .decompiled ∧ plan.answer c = .nothing) := by
  rw [h.table_eq hkept]
  have hlt : i < shift.pool.workers.length := by
    rw [hkept.sound.workers_length]
    exact (List.getElem?_eq_some_iff.1 hc).1
  have hi : shift.pool.workers[i]? = some (.ended none) := by
    rw [List.getElem?_eq_getElem hlt, h.workers _ (List.getElem_mem hlt)]
  rcases hkept.sound.stage_of_ended h.writer hi with
    ⟨hs, hsource, herror⟩ | ⟨hs, source, hsource, -⟩
  · exact .inr ⟨hs, Plan.answer_eq_nothing hc hsource herror⟩
  · exact .inl ⟨hs, source, Plan.answer_of_source? hsource hc⟩

theorem EndsWell.stageCount (h : shift.EndsWell w sources bytes) (hkept : Kept plan shift) :
    shift.table.countP (· == .written) + shift.table.countP (· == .decompiled)
      = plan.classes.length := by
  rw [h.table_eq hkept]
  exact (hkept.sound.stageCount_of_ended h.writer h.workers).trans hkept.sound.stages_length

theorem EndsWell.outcome (h : shift.EndsWell w sources bytes) (hkept : Kept plan shift) :
    shift.outcome = .ok (w, sources, bytes) := by
  rw [Shift.outcome, h.table_eq hkept]
  exact hkept.sound.outcome_of_ended h.writer h.workers

end EndsWell

-- ── Every schedule ───────────────────────────────────────────────────────────

/-- The table changes only where something further is entered. -/
theorem Kept.table_forward (h : Kept plan shift) {move : Move} (hmakes : Makes plan shift move next)
    (i : Nat) : next.table[i]? = shift.table[i]?
      ∨ ∃ s₀ s, shift.table[i]? = some s₀ ∧ next.table[i]? = some s ∧ s₀.rank < s.rank := by
  cases hmakes with
  | acted | received => exact .inl rfl
  | @entered j s hdue =>
      by_cases hj : i = j
      · subst hj
        obtain ⟨-, s₀, hs₀, hrank⟩ := h.ahead i s hdue
        exact .inr ⟨s₀, s, hs₀, List.getElem?_set_self (List.getElem?_eq_some_iff.1 hs₀).1, hrank⟩
      · exact .inl (List.getElem?_set_ne (Ne.symm hj))

/-- **Every schedule keeps the stages of its classes.**  However the steps of workers, writer and
    main loop interleave, in every state that a job can reach:

    * what a party is about to enter is strictly further than what the table says, and a move
      leaves the entry of a class or puts it strictly further;
    * until the job fails, no more calls of the decompiler are under way than there are threads;
    * the archive holds the sources of different classes, each of whose calls has returned that
      source;
    * when all workers and the writer have ended without error, every class with a source is
      written and every other is one of which the decompiler made nothing, so that nothing is
      pending and the job goes on to its outputs. -/
theorem every_schedule_keeps_stages (plan : Plan) (moves : List Move) (shift : Shift)
    (hrun : (initial plan).follow plan moves = some shift) :
    (∀ i s, (i, s) ∈ shift.due → ∃ s₀, shift.table[i]? = some s₀ ∧ s₀.rank < s.rank)
    ∧ (∀ move next, shift.step plan move = some next → ∀ i : Nat,
        next.table[i]? = shift.table[i]?
          ∨ ∃ s₀ s, shift.table[i]? = some s₀ ∧ next.table[i]? = some s ∧ s₀.rank < s.rank)
    ∧ (shift.pool.failure = none →
        (underway (acts moves) plan.classes.length).length ≤ plan.threads)
    ∧ ((shift.past.written.map Delivery.index).Nodup
        ∧ (∀ d ∈ shift.past.written, .finish d.index ∈ acts moves
            ∧ ∃ c, plan.source? d.index = some c ∧ d = c.delivery d.index)
        ∧ ∀ w sources bytes, shift.pool.writer = .ready w sources bytes
            ∨ shift.pool.writer = .finished w sources bytes →
          Wrote shift.past.written w sources bytes)
    ∧ ∀ w sources bytes, shift.EndsWell w sources bytes →
        (∀ (i : Nat) (c : ClassContext × Bytes), plan.classes[i]? = some c →
          (shift.table[i]? = some .written ∧ ∃ source, plan.answer c = .source source)
            ∨ (shift.table[i]? = some .decompiled ∧ plan.answer c = .nothing))
        ∧ shift.table.countP (· == .written) + shift.table.countP (· == .decompiled)
            = plan.classes.length
        ∧ shift.outcome = .ok (w, sources, bytes) := by
  have hkept : Kept plan shift := (kept_initial plan).follow hrun
  have htraced : Traced plan.roomier (acts moves) shift.pool := traced_of_follow (follow_pool hrun)
  have hwritten := hkept.sound.genuine_written
  refine ⟨fun i s hdue => (hkept.ahead i s hdue).2, fun move next hstep i => ?_, fun hfailure => ?_,
    ⟨hwritten.once, fun d hd => ⟨?_, hwritten.source d hd⟩, fun w sources bytes hw => ?_⟩, ?_⟩
  · exact hkept.table_forward (makes_of_step hstep) i
  · have hle := htraced.underway_le (hkept.sound.not_cancelled hfailure)
    rwa [hkept.sound.workers_length] at hle
  · have hended := hkept.sound.ended d (List.mem_append_left _ hd)
    exact (htraced.calls d.index _ hended).2
  · have htells := hkept.sound.writer
    rcases hw with hw | hw
    · rw [hw] at htells
      exact htells
    · rw [hw] at htells
      exact htells
  · intro w sources bytes hend
    exact ⟨fun i c => hend.stages hkept, hend.stageCount hkept, hend.outcome hkept⟩

/-- Two classes on two threads; only the first has a source of its own. -/
def halved : Plan where
  backend := {
    name := "halved"
    run := fun context _ =>
      match context.entryName with
      | "A.class" => .source { packageName := "", className := "A", source := "class A" }
      | _ => .nothing }
  classes := [(⟨"A.class", "A", 0, .empty, []⟩, [1]), (⟨"B.class", "B", 1, .empty, []⟩, [2])]
  threads := 2
  capacity := 1
  created := .ok ()
  output := ⟨"s.jar"⟩

/-- Entries are made late, and the worker of the second class returns while the writer holds
    the first source. -/
def dawdling : List Move :=
  [.act (.take 0), .act (.take 1), .enter 1 .decompiling, .enter 0 .decompiling, .act (.finish 0),
    .act .openWriter, .enter 0 .decompiled, .act (.record 0), .act (.queue 0),
    .enter 0 .queuedForWrite, .act (.send 0), .receive, .act (.finish 1), .act (.join 0),
    .act .write, .enter 1 .decompiled, .act (.join 1), .enter 0 .written, .act .closeWriter]

/-- The shift after these moves. -/
def dawdled : Shift := ((initial halved).follow halved dawdling).getD (initial halved)

theorem every_schedule_keeps_stages_dawdling :
    (initial halved).follow halved dawdling = some dawdled
      ∧ dawdled.table = [.written, .decompiled]
      ∧ (underway (acts (dawdling.take 3)) 2).length = 2
      ∧ ∃ w sources bytes, dawdled.EndsWell w sources bytes
        ∧ dawdled.outcome = .ok (w, sources, bytes) := by
  have hrun : (initial halved).follow halved dawdling = some dawdled := by decide +kernel
  have hwriter : dawdled.pool.writer.isOver = true ∧ dawdled.pool.writer.isBroken = false := by
    decide +kernel
  have hworkers : ∀ v ∈ dawdled.pool.workers, v = .ended none := by decide +kernel
  refine ⟨hrun, by decide +kernel, by decide +kernel, ?_⟩
  cases hw : dawdled.pool.writer with
  | opening | ready | broken =>
      rw [hw] at hwriter
      exact absurd hwriter (by simp [WriterState.isOver, WriterState.isBroken])
  | finished w sources bytes =>
      have hend : dawdled.EndsWell w sources bytes := ⟨by decide +kernel, hworkers, hw⟩
      obtain ⟨-, -, -, -, hgood⟩ := every_schedule_keeps_stages halved dawdling dawdled hrun
      exact ⟨w, sources, bytes, hend, (hgood w sources bytes hend).2.2⟩

end Shift

end Nomenclator.Decompile
