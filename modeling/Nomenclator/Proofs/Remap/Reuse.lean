import Nomenclator.Proofs.Remap.Pairs

/-! # Jobs — where the pairs of a job come from

    A pair that is there after a job that succeeded was there before, or it is what
    one of the job's calls of the tool left (`ends_traceJob`).  A job that fails after
    it has begun may have written half a pair, but only where one of its targets
    leads; and there the clean-up leaves no output (`run_eq_error`). -/

namespace Nomenclator.Remap

open Files Act

-- ── Runs ─────────────────────────────────────────────────────────────────────

namespace Act

variable {ρ α β : Type} {b b' : Bench ρ}

theorem run_bind_eq_ok {x : Act ρ α} {f : α → Act ρ β} {c : β}
    (h : (x >>= f).run.run b = (.ok c, b')) :
    ∃ a b₁, x.run.run b = (.ok a, b₁) ∧ (f a).run.run b₁ = (.ok c, b') := by
  rw [run_bind] at h
  generalize x.run.run b = out at h
  obtain ⟨result, b₁⟩ := out
  cases result with
  | ok a => exact ⟨a, b₁, rfl, h⟩
  | error e => cases h

theorem run_map (f : α → β) (x : Act ρ α) (b : Bench ρ) :
    (f <$> x).run.run b = match x.run.run b with
      | (.ok a, b') => (.ok (f a), b')
      | (.error e, b') => (.error e, b') := by
  rw [map_eq_pure_bind, run_bind]
  rfl

theorem Ends.of_run_ok {Q : α → Bench ρ → Prop} {E : Error → Bench ρ → Prop} {act : Act ρ α} {a : α}
    (h : Ends act b Q E) (hrun : act.run.run b = (.ok a, b')) : Q a b' := by
  have hholds := h.holds
  rwa [hrun] at hholds

end Act

namespace Remapper

/-- Makes all targets of a job, and tells the calls that made them. -/
def traceJob (r : Remapper) (catalog : Naming.Catalog) (job : Job) :
    Act Request (List (Outcome × Option Call)) :=
  setUp job >>= fun found => r.trace catalog job found.1 found.2 job.targets

theorem produce_eq_traceJob (r : Remapper) (catalog : Naming.Catalog) (job : Job) :
    r.produce catalog job false = List.map Prod.fst <$> r.traceJob catalog job := by
  rw [produce_eq, traceJob, map_eq_pure_bind, bind_assoc]
  refine bind_congr fun found => ?_
  rw [makeTargets_eq_trace, map_eq_pure_bind]

/-- The calls of the tool that a job makes, if it succeeds. -/
def calls (r : Remapper) (catalog : Naming.Catalog) (job : Job) (b : Bench Request) : List Call :=
  match (r.run catalog job).run.run b, (r.traceJob catalog job).run.run b with
  | (.ok _, _), (.ok made, _) => made.filterMap Prod.snd
  | _, _ => []

variable {r : Remapper} {catalog : Naming.Catalog} {job : Job} {b b' : Bench Request}

variable (r catalog job b)

/-- What a job that fails after it has begun does about it. -/
def cleanUp (e : Error) : Act Request Unit := do
  let source := job.input.text
  let reason := e.message
  report .warn s!"Rewrite of {source} failed: {reason}"
  discardAll job.targets
  let _ ← invalidateCache

theorem run_cleanUp (e : Error) :
    ∃ b', (cleanUp job e).run.run b = (.ok (), b')
      ∧ b'.files = discardingAll b.files job.targets ∧ b'.cache.Faithful := by
  have hends : Ends (cleanUp job e) b
      (fun _ b' => b'.files = discardingAll b.files job.targets ∧ b'.cache.Faithful)
      fun _ _ => False := by
    refine (ends_report _ _ b).bind fun _ b₁ hb₁ => ?_
    refine (ends_discardAll job.targets b₁).bind fun _ b₂ hb₂ => ?_
    refine (ends_invalidateCache b₂).bind fun _ b₃ hb₃ => ends_pure ⟨?_, ?_⟩
    · rw [hb₃.1, hb₂.files, ← hb₁.files]
    · rw [hb₃.2]
      exact Naming.Cache.faithful_invalidate b₂.cache
  have hholds := hends.holds
  generalize (cleanUp job e).run.run b = out at hholds ⊢
  obtain ⟨result, b'⟩ := out
  cases result with
  | ok _ => exact ⟨b', rfl, hholds⟩
  | error _ => exact hholds.elim

/-- The first target that is the input of the job. -/
def refused? : Option Target :=
  job.targets.find? fun target => b.files.samePlace job.input target.output

variable {job b}

theorem run_of_refused {target : Target} (h : refused? job b = some target) :
    (r.run catalog job).run.run b = (.error (.outputIsInput target.output), b) := by
  rw [refused?] at h
  rw [run, runJob, run_get_bind]
  dsimp only
  rw [h]
  rfl

theorem run_of_accepted (h : refused? job b = none) :
    (r.run catalog job).run.run b = match (r.traceJob catalog job).run.run b with
      | (.ok made, b') => (.ok (made.map Prod.fst), b')
      | (.error e, b') => (.error e, ((cleanUp job e).run.run b').2) := by
  have hrun : (r.run catalog job).run.run b
      = (orElseDo (r.produce catalog job false) (cleanUp job)).run.run b := by
    rw [refused?] at h
    rw [run, runJob, run_get_bind]
    dsimp only
    rw [h]
    rfl
  rw [hrun, run_orElseDo, produce_eq_traceJob, run_map]
  rcases (r.traceJob catalog job).run.run b with ⟨result, b₁⟩
  cases result with
  | ok made => rfl
  | error e =>
      obtain ⟨b₂, hclean, -⟩ := run_cleanUp job b₁ e
      dsimp only
      rw [run_bind, hclean]
      rfl

-- ── Pairs ────────────────────────────────────────────────────────────────────

/-- The output can be watched while targets are made: it names a file, and no output and
    sidecar of theirs get in each other's way. -/
structure Watchable (watched : Path) (targets : List Target) : Prop where
  name : watched.NamesFile
  off : ∀ target ∈ targets, OffSidecar watched target.output ∧ OffSidecar target.output watched

theorem Watchable.tail {watched : Path} {target : Target} {later : List Target}
    (h : Watchable watched (target :: later)) : Watchable watched later :=
  ⟨h.name, fun t ht => h.off t (List.mem_cons_of_mem _ ht)⟩

section Pairs

variable {r} (htool : r.tool.WritesOnlyOutput)
include htool

theorem ends_trace (classpath : List Path) (inputDigest : String) (targets : List Target)
    (hplain : b.files.Plain) (hfaithful : b.cache.Faithful) :
    Ends (r.trace catalog job classpath inputDigest targets) b
      (fun made b' => b.files.Keeping b'.files ∧ b'.cache.Faithful
        ∧ ∀ watched, Watchable watched targets →
          ∀ content record, Paired b'.files watched content record →
            Paired b.files watched content record
              ∨ ∃ call ∈ made.filterMap Prod.snd,
                Built r job.input inputDigest watched content record call)
      (fun e b' => e.refusesOutput = false ∧ b.files.Keeping b'.files
        ∧ ∀ watched, Watchable watched targets →
          ∀ content record, Paired b'.files watched content record →
            Paired b.files watched content record
              ∨ ∃ target ∈ targets,
                b'.files.resolve .target target.output = .ok watched.place) := by
  induction targets generalizing b with
  | nil => exact ends_pure ⟨hplain.keeping, hfaithful, fun _ _ _ _ h => .inl h⟩
  | cons target later ih =>
      refine (ends_traceTarget r catalog job classpath inputDigest target b).mono (fun _ _ h => h)
        (fun e b' h => ?_) |>.bind fun made b₁ hb₁ => ?_
      · refine ⟨h.1, Interrupted.keeping htool hplain h.2, fun watched hw _ _ hend => ?_⟩
        have hfirst := hw.off target List.mem_cons_self
        exact (Interrupted.paired htool hplain hfirst.1 hw.name hfirst.2 h.2 hend).imp_right
          fun hleads => ⟨target, List.mem_cons_self, hleads⟩
      obtain ⟨hgrows, layers, htraced, -⟩ := hb₁
      have hkeeping := Traced.keeping htool hplain htraced
      refine (ih hkeeping.plain (hgrows.faithful hfaithful)).mono (fun _ _ h => h)
        (fun e b' h => ?_) |>.bind fun others b₂ hb₂ => ends_pure ?_
      · refine ⟨h.1, hkeeping.trans h.2.1, fun watched hw content record hend => ?_⟩
        have hfirst := hw.off target List.mem_cons_self
        rcases h.2.2 watched hw.tail content record hend with hmid | ⟨other, hother, hleads⟩
        · refine (Traced.paired htool hplain hfirst.1 hw.name hfirst.2 htraced hmid).imp_right
            fun ⟨_, _, _, hleads⟩ => ?_
          exact ⟨target, List.mem_cons_self,
            hkeeping.plain.resolve_keeps h.2.1.plain h.2.1.dirs hleads⟩
        · exact .inr ⟨other, List.mem_cons_of_mem _ hother, hleads⟩
      · refine ⟨hkeeping.trans hb₂.1, hb₂.2.1, fun watched hw content record hend => ?_⟩
        have hfirst := hw.off target List.mem_cons_self
        rcases hb₂.2.2 watched hw.tail content record hend with hmid | ⟨call, hcall, hbuilt⟩
        · refine (Traced.paired htool hplain hfirst.1 hw.name hfirst.2 htraced hmid).imp_right
            fun ⟨call, hmade, hbuilt, _⟩ => ?_
          exact ⟨call, List.mem_filterMap.2 ⟨made, List.mem_cons_self, hmade⟩, hbuilt⟩
        · obtain ⟨other, hother, hmade⟩ := List.mem_filterMap.1 hcall
          exact .inr ⟨call, List.mem_filterMap.2 ⟨other, List.mem_cons_of_mem _ hother, hmade⟩,
            hbuilt⟩

variable (hplain : b.files.Plain) (hfaithful : b.cache.Faithful)
include hplain hfaithful

theorem ends_traceJob (job : Job) :
    Ends (r.traceJob catalog job) b
      (fun made b' => b.files.Keeping b'.files ∧ b'.cache.Faithful
        ∧ ∀ watched, Watchable watched job.targets →
          ∀ content record, Paired b'.files watched content record →
            Paired b.files watched content record
              ∨ ∃ bytes, b.files.readBytes job.input = .ok bytes
                ∧ ∃ call ∈ made.filterMap Prod.snd,
                  Built r job.input (Digest.fingerprint bytes) watched content record call)
      (fun e b' => e.refusesOutput = false ∧ b.files.Keeping b'.files
        ∧ ∀ watched, Watchable watched job.targets →
          ∀ content record, Paired b'.files watched content record →
            Paired b.files watched content record
              ∨ ∃ target ∈ job.targets,
                b'.files.resolve .target target.output = .ok watched.place) := by
  refine (ends_setUp job b).mono (fun _ _ h => h)
    (fun e b' h => ⟨h.2, h.1 ▸ hplain.keeping, fun _ _ _ _ h' => .inl (h.1 ▸ h')⟩)
    |>.bind fun found b₁ hb₁ => ?_
  obtain ⟨rfl, bytes, hbytes, hdigest⟩ := hb₁
  refine (ends_trace catalog htool found.1 found.2 job.targets hplain hfaithful).mono
    (fun made b' h => ⟨h.1, h.2.1, fun watched hw content record hend => ?_⟩) fun _ _ h => h
  rw [hdigest] at h
  exact (h.2.2 watched hw content record hend).imp_right fun hbuilt => ⟨bytes, hbytes, hbuilt⟩

/-- **Where the pairs of a job come from.** A pair that is there after a job was there before,
    and no target leads to it if the job had to clean up; or a call of the job left it. -/
theorem run_paired {result : Except Error (List Outcome)} {b' : Bench Request}
    (hrun : (r.run catalog job).run.run b = (result, b')) :
    b.files.Keeping b'.files ∧ b'.cache.Faithful
      ∧ ∀ watched, Watchable watched job.targets →
        ∀ content record, Paired b'.files watched content record →
          (Paired b.files watched content record
            ∧ ∀ e, result = .error e → e.refusesOutput = false → ∀ target ∈ job.targets,
              b'.files.resolve .target target.output ≠ .ok watched.place)
          ∨ ∃ bytes, b.files.readBytes job.input = .ok bytes ∧ ∃ call ∈ r.calls catalog job b,
            Built r job.input (Digest.fingerprint bytes) watched content record call := by
  cases hrefused : refused? job b with
  | some target =>
      rw [run_of_refused r catalog hrefused] at hrun
      obtain ⟨rfl, rfl⟩ := Prod.mk.inj hrun
      refine ⟨hplain.keeping, hfaithful, fun _ _ _ _ hpaired => .inl ⟨hpaired, ?_⟩⟩
      intro e he hlate
      rw [← Except.error.inj he] at hlate
      cases hlate
  | none =>
      have hends := (ends_traceJob catalog htool hplain hfaithful job).holds
      have haccepted := run_of_accepted r catalog hrefused
      rcases htrace : (r.traceJob catalog job).run.run b with ⟨traced, b₁⟩
      rw [htrace] at hends haccepted
      cases traced with
      | ok made =>
          obtain ⟨rfl, rfl⟩ := Prod.mk.inj (haccepted.symm.trans hrun)
          have hcalls : r.calls catalog job b = made.filterMap Prod.snd := by
            rw [calls, haccepted, htrace]
          refine ⟨hends.1, hends.2.1, fun watched hw content record hpaired => ?_⟩
          rw [hcalls]
          exact (hends.2.2 watched hw content record hpaired).imp_left
            fun h => ⟨h, fun e he => nomatch he⟩
      | error e =>
          obtain ⟨b₂, hrun₂, hclean⟩ := run_cleanUp job b₁ e
          simp only [hrun₂] at haccepted
          obtain ⟨rfl, rfl⟩ := Prod.mk.inj (haccepted.symm.trans hrun)
          have hkeeping := keeping_discardingAll hends.2.1.plain job.targets
          rw [hclean.1]
          refine ⟨hends.2.1.trans hkeeping, hclean.2, fun watched hw content record hpaired => ?_⟩
          -- no output is left where a target leads
          have hnone : ∀ target ∈ job.targets,
              (discardingAll b₁.files job.targets).resolve .target target.output
                ≠ .ok watched.place := by
            intro target htarget hleads
            have hgone := (gone_discardingAll b₁.files htarget).1
            rw [FileTree.isFile_of_resolve hleads hpaired.output] at hgone
            cases hgone
          have hbefore := hpaired.before (sheds_discardingAll b₁.files job.targets).bringsNoFile
          rcases hends.2.2 watched hw content record hbefore with hstart | ⟨target, htarget, hleads⟩
          · exact .inl ⟨hstart, fun _ _ _ => hnone⟩
          · exact absurd (hends.2.1.plain.resolve_keeps hkeeping.plain hkeeping.dirs hleads)
              (hnone target htarget)

end Pairs

-- ── One target of many ───────────────────────────────────────────────────────

/-- A run is cut at one of its targets. -/
theorem trace_split {classpath : List Path} {inputDigest : String} {targets : List Target}
    {before later : List (Outcome × Option Call)} {made : Outcome × Option Call}
    {b' : Bench Request}
    (h : (r.trace catalog job classpath inputDigest targets).run.run b
      = (.ok (before ++ made :: later), b')) :
    ∃ first target others b₁ b₂, targets = first ++ target :: others
      ∧ first.length = before.length
      ∧ (r.trace catalog job classpath inputDigest first).run.run b = (.ok before, b₁)
      ∧ (r.traceTarget catalog job classpath inputDigest target).run.run b₁ = (.ok made, b₂)
      ∧ (r.trace catalog job classpath inputDigest others).run.run b₂ = (.ok later, b') := by
  have hcons : ∀ {targets b made others}, (r.trace catalog job classpath inputDigest targets).run.run b
      = (.ok (made :: others), b') → ∃ target rest b₁, targets = target :: rest
        ∧ (r.traceTarget catalog job classpath inputDigest target).run.run b = (.ok made, b₁)
        ∧ (r.trace catalog job classpath inputDigest rest).run.run b₁ = (.ok others, b') := by
    intro targets b made others h
    cases targets with
    | nil => cases h
    | cons target rest =>
        obtain ⟨first, b₁, hfirst, h⟩ := run_bind_eq_ok h
        obtain ⟨found, b₂, hrest, h⟩ := run_bind_eq_ok h
        cases h
        exact ⟨target, rest, b₁, rfl, hfirst, hrest⟩
  induction before generalizing targets b with
  | nil =>
      obtain ⟨target, rest, b₁, rfl, hfirst, hrest⟩ := hcons h
      exact ⟨[], target, rest, b, b₁, rfl, rfl, rfl, hfirst, hrest⟩
  | cons earlier before ih =>
      obtain ⟨target, rest, b₁, rfl, hfirst, hrest⟩ := hcons h
      obtain ⟨first, watched, others, b₂, b₃, rfl, hlength, hbefore, hmade, hlater⟩ := ih hrest
      refine ⟨target :: first, watched, others, b₂, b₃, rfl, ?_, ?_, hmade, hlater⟩
      · rw [List.length_cons, List.length_cons, hlength]
      · rw [trace, run_bind, hfirst]
        dsimp only
        rw [run_bind, hbefore]
        rfl

/-- Targets that are made elsewhere leave a file that is there. -/
theorem trace_watched {r : Remapper} (htool : r.tool.WritesOnlyOutput) {classpath : List Path}
    {inputDigest : String} {targets : List Target} {watched : Path}
    (hoff : ∀ target ∈ targets, OffSidecar watched target.output) (hplain : b.files.Plain)
    {content : Content} (hat : b.files.at? watched.place = some (.file content))
    {made : List (Outcome × Option Call)} {b' : Bench Request}
    (hrun : (r.trace catalog job classpath inputDigest targets).run.run b = (.ok made, b'))
    (helsewhere : ∀ m ∈ made, m.1.cached = false → m.1.output.place ≠ watched.place) :
    b'.files.at? watched.place = some (.file content) := by
  induction targets generalizing b made with
  | nil =>
      cases hrun
      exact hat
  | cons target later ih =>
      obtain ⟨first, b₁, hfirst, hrun⟩ := run_bind_eq_ok hrun
      obtain ⟨others, b₂, hothers, hrun⟩ := run_bind_eq_ok hrun
      cases hrun
      obtain ⟨-, layers, htraced, -⟩ :=
        (ends_traceTarget r catalog job classpath inputDigest target b).of_run_ok hfirst
      have hkeeping := Traced.keeping htool hplain htraced
      have houtput : first.1.output = target.output := (Traced.output htraced).2
      have hthere := Traced.at?_watched htool hplain (hoff target List.mem_cons_self) htraced
        (houtput ▸ helsewhere first List.mem_cons_self) hat
      exact ih (fun t ht => hoff t (List.mem_cons_of_mem _ ht)) hkeeping.plain hthere hothers
        fun m hm => helsewhere m (List.mem_cons_of_mem _ hm)

/-- What taking an output again has found. -/
theorem Reusable.paired {t : FileTree} (h : t.Plain) {output : Path} {expected : Sidecar}
    (hreusable : Reusable t output expected) :
    output.NamesFile ∧ t.resolve .target output = .ok output.place
      ∧ ∃ content record s, Paired t output content record
        ∧ t.lookUp (Sidecar.pathOf output).place = .ok (some (.file record))
        ∧ Sidecar.parse? record.bytes = some s ∧ s.sameBuild expected = true := by
  obtain ⟨hfile, s, hload, hsame⟩ := hreusable
  obtain ⟨content, hstat⟩ := FileTree.stat_of_isFile hfile
  obtain ⟨hleads, hat⟩ := h.stat_file hstat
  refine ⟨FileTree.namesFile_of_stat hstat, hleads, ?_⟩
  rw [Sidecar.load] at hload
  cases hread : t.readBytes (Sidecar.pathOf output) with
  | error f =>
      rw [hread] at hload
      cases hload
  | ok bytes =>
      obtain ⟨record, hrecord, rfl⟩ := FileTree.readBytes_eq_ok hread
      have hrecordat := (h.stat_file hrecord).2
      obtain ⟨entry, node, hentry, hlook, -, hslash⟩ := FileTree.entry_of_stat hrecord
      rw [(h.entryAt_eq_ok hentry).2 hslash] at hlook
      rw [hread] at hload
      dsimp only at hload
      cases hparse : Sidecar.parse? record.bytes with
      | none =>
          rw [hparse] at hload
          cases hload
      | some found =>
          rw [hparse] at hload
          obtain rfl := Option.some.inj hload
          refine ⟨content, record, found, ⟨hat, hrecordat⟩, ?_, hparse, hsame⟩
          rw [FileTree.lookUp_of_lookUp hlook, hrecordat]

end Remapper

/-- The job with its first targets only. -/
def Job.upTo (job : Job) (n : Nat) : Job := { job with targets := job.targets.take n }

namespace Remapper

theorem trace_upTo (r : Remapper) (catalog : Naming.Catalog) (job : Job) (n : Nat)
    (classpath : List Path) (inputDigest : String) (targets : List Target) :
    r.trace catalog (job.upTo n) classpath inputDigest targets
      = r.trace catalog job classpath inputDigest targets := by
  induction targets with
  | nil => rfl
  | cons target later ih =>
      rw [trace, trace, ih]
      rfl

variable {r : Remapper} {catalog : Naming.Catalog} {job : Job} {b b' b₁ : Bench Request}

/-- A run that stops before one of the targets. -/
theorem run_upTo {found : List Path × String} {first others : List Target}
    {made : List (Outcome × Option Call)} (haccepted : refused? job b = none)
    (hsetUp : (setUp job).run.run b = (.ok found, b)) (htargets : job.targets = first ++ others)
    (hmade : (r.trace catalog job found.1 found.2 first).run.run b = (.ok made, b₁)) :
    (r.run catalog (job.upTo first.length)).run.run b = (.ok (made.map Prod.fst), b₁) := by
  have hfirst : (job.upTo first.length).targets = first := by
    rw [Job.upTo, htargets, List.take_left]
  have haccepted' : refused? (job.upTo first.length) b = none := by
    rw [refused?, htargets, List.find?_append, Option.or_eq_none_iff] at haccepted
    rw [refused?, hfirst]
    exact haccepted.1
  have htrace : (r.traceJob catalog (job.upTo first.length)).run.run b = (.ok made, b₁) := by
    have hsetUp' : (setUp (job.upTo first.length)).run.run b = (.ok found, b) := hsetUp
    rw [traceJob, run_bind, hsetUp', hfirst]
    dsimp only
    rw [trace_upTo]
    exact hmade
  rw [run_of_accepted r catalog haccepted', htrace]

theorem run_eq_ok {outcomes : List Outcome}
    (h : (r.run catalog job).run.run b = (.ok outcomes, b')) :
    refused? job b = none ∧ ∃ made, (r.traceJob catalog job).run.run b = (.ok made, b')
      ∧ outcomes = made.map Prod.fst := by
  cases hrefused : refused? job b with
  | some target =>
      rw [run_of_refused r catalog hrefused] at h
      cases h
  | none =>
      rw [run_of_accepted r catalog hrefused] at h
      rcases htrace : (r.traceJob catalog job).run.run b with ⟨result, b₁⟩
      rw [htrace] at h
      cases result with
      | ok made =>
          obtain ⟨houtcomes, rfl⟩ := Prod.mk.inj h
          exact ⟨rfl, made, rfl, (Except.ok.inj houtcomes).symm⟩
      | error e => cases h

/-- **An output that is taken again.** Before its target there was the output with a sidecar
    that names the same build, and at the end of the job there still is, unless a later target
    has made it anew. -/
theorem run_reuse (htool : r.tool.WritesOnlyOutput)
    (hoff : ∀ target ∈ job.targets, ∀ other ∈ job.targets, OffSidecar target.output other.output)
    (hplain : b.files.Plain) (hfaithful : b.cache.Faithful)
    {before later : List Outcome} {outcome : Outcome}
    (hrun : (r.run catalog job).run.run b = (.ok (before ++ outcome :: later), b'))
    (hcached : outcome.cached = true)
    (hlater : ∀ o ∈ later, o.cached = false → o.output.place ≠ outcome.output.place) :
    ∃ b₁ bytes content record s, (∃ target ∈ job.targets, target.output = outcome.output)
      ∧ (r.run catalog (job.upTo before.length)).run.run b = (.ok before, b₁)
      ∧ b.files.readBytes job.input = .ok bytes
      ∧ outcome.output.NamesFile
      ∧ Paired b₁.files outcome.output content record
      ∧ b₁.files.lookUp (Sidecar.pathOf outcome.output).place = .ok (some (.file record))
      ∧ Sidecar.parse? record.bytes = some s
      ∧ s.tool = r.tool.name ∧ s.inputDigest = Digest.fingerprint bytes
      ∧ s.layers = r.fingerprints catalog job outcome.label ∧ s.flags = r.settings.flags
      ∧ b'.files.stat outcome.output = .ok (.file content) := by
  obtain ⟨haccepted, traced, htrace, houtcomes⟩ := run_eq_ok hrun
  obtain ⟨before', rest, rfl, rfl, hrest⟩ := List.map_eq_append_iff.1 houtcomes.symm
  obtain ⟨made, later', rfl, rfl, rfl⟩ := List.map_eq_cons_iff.1 hrest
  obtain ⟨found, b₀, hsetUp, hmakes⟩ := run_bind_eq_ok htrace
  obtain ⟨hb₀, bytes, hbytes, hdigest⟩ := (ends_setUp job b).of_run_ok hsetUp
  rw [hb₀] at hsetUp hmakes
  obtain ⟨first, target, others, b₁, b₂, htargets, hlength, hfirst, hmade, hothers⟩ :=
    trace_split r catalog hmakes
  have hmem : target ∈ job.targets := by
    rw [htargets]
    exact List.mem_append_right _ List.mem_cons_self
  obtain ⟨hkeeping₁, hfaithful₁, -⟩ :=
    (ends_trace catalog htool found.1 found.2 first hplain hfaithful).of_run_ok hfirst
  obtain ⟨-, layers, htraced, hdrawn⟩ :=
    (ends_traceTarget r catalog job found.1 found.2 target b₁).of_run_ok hmade
  obtain ⟨hlabel, houtput⟩ := Traced.output htraced
  have hother : ∀ other ∈ others, OffSidecar made.1.output other.output := by
    intro other hother
    rw [houtput]
    refine hoff target hmem other ?_
    rw [htargets]
    exact List.mem_append_right _ (List.mem_cons_of_mem _ hother)
  obtain ⟨outcome, call?⟩ := made
  cases call? with
  | some call =>
      rw [htraced.1] at hcached
      cases hcached
  | none =>
      obtain ⟨-, hrests, hreusable⟩ := htraced
      dsimp only at houtput hlabel hother ⊢
      rw [← houtput] at hreusable
      obtain ⟨hname, hleads, content, record, s, hpaired, hlook, hparse, hsame⟩ :=
        Reusable.paired hkeeping₁.plain hreusable
      have hplain₂ : b₂.files.Plain := hrests.files ▸ hkeeping₁.plain
      have hkeeping₂ := ((ends_trace catalog htool found.1 found.2 others hplain₂
        (hrests.faithful hfaithful₁)).of_run_ok hothers).1
      have hend := trace_watched catalog htool hother hplain₂ (hrests.files ▸ hpaired.output)
        hothers fun m hm => hlater m.1 (List.mem_map_of_mem hm)
      have hstat : b'.files.stat outcome.output = .ok (.file content) :=
        FileTree.stat_of_resolve (hplain₂.resolve_keeps hkeeping₂.plain hkeeping₂.dirs
          (hrests.files ▸ hleads)) hend
      have hbefore := run_upTo haccepted hsetUp htargets hfirst
      rw [hlength] at hbefore
      simp only [Sidecar.sameBuild, Bool.and_eq_true, beq_iff_eq] at hsame
      obtain ⟨⟨⟨hname', hinput⟩, hprints⟩, hflags⟩ := hsame
      refine ⟨b₁, bytes, content, record, s, ⟨target, hmem, houtput.symm⟩, ?_, hbytes, hname, hpaired, hlook, hparse, hname',
        hinput.trans hdigest, ?_, hflags, hstat⟩
      · rw [List.length_map]
        exact hbefore
      · rw [hprints, hlabel, ← hdrawn.prints hfaithful₁]
        rfl

end Remapper

-- ── Forgetting ───────────────────────────────────────────────────────────────

/-- A pair that is there after sidecars were discarded was there before, and no path that leads
    to the output was among those that were given. -/
theorem Sidecar.paired_discard_all {t u : FileTree} (h : t.Plain) {watched : Path}
    (hwatched : watched.NamesFile) {node : Option Node}
    (hlook : u.lookUp (pathOf watched).place = .ok node) {outputs : List Path}
    {content record : Content} (hpaired : Paired (outputs.foldl discard t) watched content record) :
    Paired t watched content record ∧ ∀ p ∈ outputs,
      FileTree.checkText (pathOf p) = .ok () → t.resolve .target p ≠ .ok watched.place := by
  induction outputs generalizing t with
  | nil => exact ⟨hpaired, fun _ hp => nomatch hp⟩
  | cons p later ih =>
      have hkeeping := (discard_plain h p).1
      obtain ⟨hafter, hlater⟩ := ih hkeeping.plain hpaired
      have hbefore := hafter.before (sheds_discard t p).bringsNoFile
      refine ⟨hbefore, fun q hq hcheck hleads => ?_⟩
      rcases List.mem_cons.1 hq with rfl | hq
      · -- the sidecar would have been removed
        have hname := FileTree.namesFile_of_stat (FileTree.stat_of_resolve hleads hbefore.output)
        have hplace := place_pathOf_congr hname hwatched (h.resolve_eq_ok hleads).1.symm
        have hentry : t.entryAt (pathOf q) = .ok (pathOf q).place :=
          h.entryAt_append hname hleads (by decide) hcheck
        have hthere : t.lookUp (pathOf q).place = .ok (some (.file record)) := by
          rw [hplace, FileTree.lookUp_of_lookUp hlook, hbefore.sidecar]
        have hremove := FileTree.removeFile_of_lookUp hentry hthere Node.noConfusion
          (endsInSlash_pathOf q)
        have hsidecar := hafter.sidecar
        rw [discard, hremove, ← hplace] at hsidecar
        dsimp only at hsidecar
        rw [(h.removeFile hremove).2, if_pos rfl] at hsidecar
        cases hsidecar
      · exact hlater q hq hcheck (h.resolve_keeps hkeeping.plain hkeeping.dirs hleads)

end Nomenclator.Remap
