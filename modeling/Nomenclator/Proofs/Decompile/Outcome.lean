import Nomenclator.Decompile.Job
import Nomenclator.Proofs.Decompile.Progress

/-! # The pool — one outcome for all orders

    When the decompiler fails on no class and no two sources have one path, nothing
    in a pool can fail, and the order of its events does not show in what it leaves
    behind.

    * **The yield of a plan** — sources, files, directories and lines, read off the
      classes one by one, without a pool;
    * **`Plan.Smooth`** — nothing can fail;
    * `Sound.ended_calm` — so at the end of a run all workers have ended well;
    * `outcome_of_ended` — and the run has produced the yield of its plan. -/

namespace Nomenclator.Decompile

open Files (ArchiveEntry)

-- ── The yield of a plan ──────────────────────────────────────────────────────

/-- The file of a source in the archive. -/
def DecompiledClass.file (c : DecompiledClass) : String × Bytes :=
  (c.outputPath, Text.encodeUtf8 c.source.toList)

namespace Plan

variable (plan : Plan)

/-- The sources of the classes that have one of their own. -/
def sources : List DecompiledClass := plan.classes.filterMap fun c => (plan.answer c).source?

/-- The files of the archive: the manifest, and one file for each source. -/
def files : List (String × Bytes) :=
  (SourceWriter.manifestName, SourceWriter.manifest) :: plan.sources.map DecompiledClass.file

/-- The directories on the way to the files, each of them once. -/
def directories : List String := (plan.files.flatMap fun file => Archive.dirNames file.1).dedup

/-- The entries of the archive. -/
def entries : List ArchiveEntry :=
  plan.files.map Archive.fileEntry ++ plan.directories.map Archive.dirEntry

/-- The lines of the classes for which some were reported. -/
def reports : List (String × LineRows) :=
  plan.classes.filterMap fun c => (plan.answer c).lines? c.1.binaryName

/-- The line table of the job. -/
def lineTable : LineTable := { classes := .ofList plan.reports }

/-- The figures of the job. -/
def stats : Stats where
  classes := plan.classes.length
  sourcesWritten := plan.sources.length
  sourceBytes := (plan.sources.map fun c => c.file.2.length).sum
  directories := plan.directories.length
  lineTableClasses := plan.reports.length

/-- Nothing can fail: the archive can be created, the decompiler fails on no class, no two
    sources have one path, and no two classes one name. -/
structure Smooth : Prop where
  created : plan.created = .ok ()
  answers : ∀ c ∈ plan.classes, (plan.answer c).error? plan.backend.name c.1.binaryName = none
  paths : (plan.sources.map DecompiledClass.outputPath).Nodup
  names : (plan.classes.map fun c => c.1.binaryName).Nodup

end Plan

-- ── Lists of indices ─────────────────────────────────────────────────────────

variable {α β : Type}

/-- What is read off the members of a list can be read off their indices. -/
theorem filterMap_range (xs : List α) (f : α → Option β) :
    (List.range xs.length).filterMap (fun i => xs[i]?.bind f) = xs.filterMap f := by
  induction xs with
  | nil => rfl
  | cons x rest ih =>
      have hrest : (List.range rest.length).filterMap ((fun i => (x :: rest)[i]?.bind f) ∘ Nat.succ)
          = rest.filterMap f := ih
      rw [List.length_cons, List.range_succ_eq_map, List.filterMap_cons, List.filterMap_map, hrest,
        List.getElem?_cons_zero, Option.bind_some, List.filterMap_cons]

/-- Lists without repetitions yield the same, up to order, if they have the same members among
    those that yield something. -/
theorem filterMap_perm {f : α → Option β} {xs ys : List α} (hxs : xs.Nodup) (hys : ys.Nodup)
    (h : ∀ x, (f x).isSome → (x ∈ xs ↔ x ∈ ys)) : (xs.filterMap f).Perm (ys.filterMap f) := by
  rw [← SortedMap.filterMap_filter_isSome f xs, ← SortedMap.filterMap_filter_isSome f ys]
  refine List.Perm.filterMap f ((List.perm_ext_iff_of_nodup (hxs.filter _) (hys.filter _)).2 ?_)
  intro x
  rw [List.mem_filter, List.mem_filter]
  exact and_congr_left fun hf => h x hf

variable {plan : Plan} {p p' : Pool} {i : Nat} {past : History}

/-- The source of the class at an index, on its way to the writer. -/
def Plan.delivery? (plan : Plan) (i : Nat) : Option Delivery :=
  (plan.source? i).map fun c => c.delivery i

theorem Plan.lt_of_source? {c : DecompiledClass} (h : plan.source? i = some c) :
    i < plan.classes.length := by
  obtain ⟨context, hclass, -⟩ := Option.bind_eq_some_iff.1 h
  exact (List.getElem?_eq_some_iff.1 hclass).1

theorem Plan.error?_eq_none (h : plan.Smooth) (i : Nat) : plan.error? i = none := by
  rw [Plan.error?]
  cases hc : plan.classes[i]? with
  | none => rfl
  | some c => exact h.answers c (List.mem_of_getElem? hc)

/-- Sources that came from a pool are found again by their indices. -/
theorem Genuine.eq_filterMap {ds : List Delivery} (h : Genuine plan ds) :
    ds = (ds.map Delivery.index).filterMap plan.delivery? := by
  have hsource := h.source
  clear h
  induction ds with
  | nil => rfl
  | cons d rest ih =>
      obtain ⟨c, hc, hd⟩ := hsource d List.mem_cons_self
      have hdelivery : plan.delivery? d.index = some d := by
        rw [Plan.delivery?, hc]
        exact congrArg some hd.symm
      rw [List.map_cons, List.filterMap_cons_some hdelivery]
      exact congrArg (d :: ·) (ih fun d' hd' => hsource d' (List.mem_cons_of_mem _ hd'))

/-- All sources of a plan, in order, are its files. -/
theorem Plan.files_eq (plan : Plan) :
    ((List.range plan.classes.length).filterMap plan.delivery?).map Delivery.file
      = plan.sources.map DecompiledClass.file := by
  rw [List.map_filterMap]
  have hfile : ∀ i, (plan.delivery? i).map Delivery.file
      = plan.classes[i]?.bind fun c => (plan.answer c).source?.map DecompiledClass.file := by
    intro i
    rw [Plan.delivery?, Option.map_map, Plan.source?, Option.map_bind]
    rfl
  rw [funext hfile, filterMap_range, Plan.sources, List.map_filterMap]

/-- Sources that came from a pool have paths of their own. -/
theorem Genuine.paths_nodup {ds : List Delivery} (h : Genuine plan ds) (hplan : plan.Smooth) :
    (ds.map Delivery.path).Nodup := by
  have hsub : ds.map Delivery.index ⊆ List.range plan.classes.length := by
    intro i hi
    obtain ⟨d, hd, rfl⟩ := List.mem_map.1 hi
    obtain ⟨c, hc, -⟩ := h.source d hd
    exact List.mem_range.2 (Plan.lt_of_source? hc)
  obtain ⟨order, hperm, hsublist⟩ := List.subperm_of_subset h.once hsub
  have hpaths : plan.sources.map DecompiledClass.outputPath
      = ((List.range plan.classes.length).filterMap plan.delivery?).map Delivery.path := by
    have hfirst := congrArg (List.map Prod.fst) plan.files_eq
    rw [List.map_map, List.map_map] at hfirst
    exact hfirst.symm
  rw [h.eq_filterMap]
  refine ((hperm.filterMap plan.delivery?).map Delivery.path).nodup_iff.1 ?_
  refine List.Nodup.sublist ((hsublist.filterMap _).map _) ?_
  rw [← hpaths]
  exact hplan.paths

-- ── Nothing is refused ───────────────────────────────────────────────────────

/-- The path of a source ends as the name of a file. -/
theorem DecompiledClass.getLast?_outputPath (c : DecompiledClass) :
    c.outputPath.toList.getLast? = some 'a' := by
  have hjava : ∀ text : String, (text ++ ".java").toList.getLast? = some 'a' := by
    intro text
    rw [String.toList_append, List.getLast?_append]
    rfl
  rw [outputPath]
  split
  · exact hjava _
  · exact hjava _

/-- Sources that came from a pool can all be written, in the order in which they are. -/
theorem Genuine.exists_addFiles {ds : List Delivery} (h : Genuine plan ds) (hplan : plan.Smooth) :
    ∃ b, Archive.Builder.addFiles {} (archiveFiles ds) = (true, b)
      ∧ b.Lists (archiveFiles ds) ((archiveFiles ds).flatMap fun file => Archive.dirNames file.1) := by
  have hlast : ∀ d ∈ ds, d.path.toList.getLast? = some 'a' := by
    intro d hd
    obtain ⟨c, -, heq⟩ := h.source d hd
    rw [heq]
    exact c.getLast?_outputPath
  refine Archive.Builder.lists_empty.addFiles (fun file hfile => ?_) ?_
  · rcases List.mem_cons.1 hfile with rfl | hfile
    · decide
    · obtain ⟨d, hd, rfl⟩ := List.mem_map.1 hfile
      intro hslash
      exact absurd ((hlast d hd).symm.trans hslash) (by decide)
  · rw [List.nil_append, archiveFiles, List.map_cons, List.map_map, List.nodup_cons]
    refine ⟨fun hmem => ?_, h.paths_nodup hplan⟩
    obtain ⟨d, hd, hname⟩ := List.mem_map.1 hmem
    have hmanifest : d.path = SourceWriter.manifestName := hname
    have hd' := hlast d hd
    rw [hmanifest] at hd'
    exact absurd hd' (by decide)

/-- The writer of a smooth plan does not stop. -/
theorem Plan.Smooth.not_stops (hplan : plan.Smooth) (error : Error) : ¬ Stops plan error := by
  intro hstops
  cases hstops with
  | notCreated hc =>
      rw [hplan.created] at hc
      exact nomatch hc
  | @notWritten ds d b b' hgenuine hbuilt hadd =>
      obtain ⟨b₁, hall, -⟩ := hgenuine.exists_addFiles hplan
      have hsplit : archiveFiles (ds ++ [d]) = archiveFiles ds ++ [d.file] := by
        rw [archiveFiles, List.map_append]
        rfl
      rw [hsplit, Archive.Builder.addFiles_append, hbuilt] at hall
      dsimp only at hall
      rw [Archive.Builder.addFiles, Delivery.file, hadd] at hall
      cases hall

/-- Where a worker has ended well and the writer has finished, its class is written, or the
    decompiler made nothing of it. -/
theorem Sound.stage_of_ended (h : Sound plan past p) {w : SourceWriter} {sources bytes : Nat}
    (hw : p.writer = .finished w sources bytes) (hi : p.workers[i]? = some (.ended none)) :
    (p.stages[i]? = some .decompiled ∧ plan.source? i = none ∧ plan.error? i = none)
      ∨ (p.stages[i]? = some .written ∧ ∃ c, plan.source? i = some c ∧ i ∈ past.noted
          ∧ c.delivery i ∈ past.written) := by
  have hunbroken : (p.board past).broken = false := by
    show p.writer.isBroken = false
    rw [hw]
    rfl
  have hempty : (p.board past).channel = [] := h.drained _ _ _ hw
  obtain ⟨s, hs, hfits⟩ := h.exists_stage hi
  cases hfits with
  | skipped hnone herror => exact .inl ⟨hs, hnone, herror⟩
  | written hc hnoted hmem => exact .inr ⟨hs, _, hc, hnoted, hmem⟩
  | sent _ _ hmem => rw [hempty] at hmem; exact nomatch hmem
  | lost _ _ hbroken => exact nomatch hunbroken.symm.trans hbroken

/-- Classes that are all written or decompiled make up the whole. -/
theorem Pool.stageCount_add (h : ∀ s ∈ p.stages, s = .written ∨ s = .decompiled) :
    p.stageCount .written + p.stageCount .decompiled = p.stages.length := by
  rw [stageCount, stageCount,
    List.length_eq_countP_add_countP (p := (· == Stage.written)) (l := p.stages)]
  congr 1
  refine List.countP_congr fun s hs => ?_
  rcases h s hs with rfl | rfl <;> decide

theorem Sound.stageCount_of_ended (h : Sound plan past p) {w : SourceWriter} {sources bytes : Nat}
    (hw : p.writer = .finished w sources bytes) (hworkers : ∀ v ∈ p.workers, v = .ended none) :
    p.stageCount .written + p.stageCount .decompiled = p.stages.length := by
  refine Pool.stageCount_add fun s hs => ?_
  obtain ⟨i, hi⟩ := List.getElem?_of_mem hs
  have hlt : i < p.workers.length := by
    rw [h.workers_length, ← h.stages_length]
    exact (List.getElem?_eq_some_iff.1 hi).1
  have hworker : p.workers[i]? = some (.ended none) := by
    rw [List.getElem?_eq_getElem hlt, hworkers _ (List.getElem_mem hlt)]
  rcases h.stage_of_ended hw hworker with ⟨hstage, -⟩ | ⟨hstage, -⟩
  · exact .inr (Option.some.inj (hi.symm.trans hstage))
  · exact .inl (Option.some.inj (hi.symm.trans hstage))

/-- Workers and a writer that have all ended well make a good outcome. -/
theorem Sound.outcome_of_ended (h : Sound plan past p) {w : SourceWriter} {sources bytes : Nat}
    (hw : p.writer = .finished w sources bytes) (hworkers : ∀ v ∈ p.workers, v = .ended none) :
    p.outcome = .ok (w, sources, bytes) := by
  have hfailure : p.failure = none := by
    cases hf : p.failure with
    | none => rfl
    | some error =>
        obtain ⟨i, hi⟩ := h.failure error hf
        exact nomatch hworkers _ (List.mem_of_getElem? hi)
  rw [Pool.outcome, hfailure, hw]
  exact if_pos (h.stageCount_of_ended hw hworkers)

/-- At the end of a run of a smooth plan the writer has finished, and all workers have ended
    well. -/
structure Calm (past : History) (p : Pool) : Prop where
  workers : ∀ v ∈ p.workers, v = .ended none
  finished : ∃ w sources bytes, p.writer = .finished w sources bytes
    ∧ Wrote past.written w sources bytes

theorem Sound.ended_calm (h : Sound plan past p) (hplan : plan.Smooth) (hended : p.ended = true) :
    Calm past p := by
  obtain ⟨-, hwriter⟩ := Bool.and_eq_true_iff.1 hended
  have htells := h.writer
  cases hw : p.writer with
  | opening => rw [hw] at hwriter; exact nomatch hwriter
  | ready w sources bytes => rw [hw] at hwriter; exact nomatch hwriter
  | broken error =>
      rw [hw] at htells
      exact absurd htells (hplan.not_stops error)
  | finished writer sources bytes =>
  rw [hw] at htells
  have hunbroken : (p.board past).broken = false := by
    show p.writer.isBroken = false
    rw [hw]
    rfl
  -- an error would have come from the decompiler or from a writer that stopped
  have hnoError : ∀ (i : Nat) error, p.workers[i]? ≠ some (.ended (some error)) := by
    intro i error hi
    obtain ⟨s, -, hfits⟩ := h.exists_stage hi
    cases hfits with
    | refused _ _ hbroken => rw [hunbroken] at hbroken; exact nomatch hbroken
    | failed herror =>
        rw [Plan.error?_eq_none hplan] at herror
        exact nomatch herror
  have hfailure : p.failure = none := by
    cases hf : p.failure with
    | none => rfl
    | some error =>
        obtain ⟨i, hi⟩ := h.failure error hf
        exact absurd hi (hnoError i error)
  refine ⟨fun v hv => ?_, writer, sources, bytes, hw, htells⟩
  obtain ⟨i, hi⟩ := List.getElem?_of_mem hv
  have hover := h.finished _ _ _ hw _ hv
  cases v with
  | ended error =>
      cases error with
      | none => rfl
      | some error => exact absurd hi (hnoError i error)
  | cancelled => exact absurd hi (h.not_cancelled hfailure i)
  | waiting | running | returned | recorded | sending => exact nomatch hover

/-- A class with a source of its own has recorded its lines, and its source is written. -/
theorem Calm.delivered (h : Calm past p) (hsound : Sound plan past p) {c : DecompiledClass}
    (hc : plan.source? i = some c) : i ∈ past.noted ∧ c.delivery i ∈ past.written := by
  have hlt : i < p.workers.length := by
    rw [hsound.workers_length]
    exact Plan.lt_of_source? hc
  have hi : p.workers[i]? = some (.ended none) := by
    rw [List.getElem?_eq_getElem hlt, h.workers _ (List.getElem_mem hlt)]
  obtain ⟨w, sources, bytes, hw, -⟩ := h.finished
  rcases hsound.stage_of_ended hw hi with ⟨-, hnone, -⟩ | ⟨-, c', hc', hnoted, hmem⟩
  · exact nomatch hnone.symm.trans hc
  · obtain rfl := Option.some.inj (hc.symm.trans hc')
    exact ⟨hnoted, hmem⟩

-- ── One outcome ──────────────────────────────────────────────────────────────

theorem Plan.isSome_source?_of_lines? (h : (plan.lines? i).isSome) :
    ∃ c, plan.source? i = some c := by
  obtain ⟨lines, hlines⟩ := Option.isSome_iff_exists.1 h
  obtain ⟨context, hclass, hanswer⟩ := Option.bind_eq_some_iff.1 hlines
  obtain ⟨c, hc, -⟩ := Option.bind_eq_some_iff.1 hanswer
  exact ⟨c, Option.bind_eq_some_iff.2 ⟨context, hclass, hc⟩⟩

theorem Sound.genuine_written (h : Sound plan past p) : Genuine plan past.written :=
  h.genuine.sublist (List.sublist_append_left _ _)

/-- The sources that were written are those of the plan. -/
theorem Calm.files_perm (h : Calm past p) (hsound : Sound plan past p) :
    (archiveFiles past.written).Perm plan.files := by
  have hgenuine := hsound.genuine_written
  have hperm : past.written.Perm
      ((List.range plan.classes.length).filterMap plan.delivery?) := by
    rw [hgenuine.eq_filterMap]
    refine filterMap_perm hgenuine.once List.nodup_range fun i hi => ?_
    obtain ⟨d, hd⟩ := Option.isSome_iff_exists.1 hi
    obtain ⟨c, hc, -⟩ := Option.map_eq_some_iff.1 hd
    have hin := (h.delivered hsound hc).2
    exact iff_of_true (List.mem_map.2 ⟨_, hin, rfl⟩) (List.mem_range.2 (Plan.lt_of_source? hc))
  rw [archiveFiles, Plan.files, ← Plan.files_eq]
  exact (hperm.map Delivery.file).cons _

/-- The lines that were recorded are those of the plan. -/
theorem Calm.reports_perm (h : Calm past p) (hsound : Sound plan past p) :
    (past.noted.filterMap plan.lines?).Perm plan.reports := by
  have hall : (List.range plan.classes.length).filterMap plan.lines? = plan.reports :=
    filterMap_range plan.classes fun c => (plan.answer c).lines? c.1.binaryName
  rw [← hall]
  refine filterMap_perm hsound.noted List.nodup_range fun i hi => ?_
  obtain ⟨c, hc⟩ := Plan.isSome_source?_of_lines? hi
  exact iff_of_true (h.delivered hsound hc).1 (List.mem_range.2 (Plan.lt_of_source? hc))

/-- No two classes that report lines have one name. -/
theorem Plan.Smooth.reports_nodup (h : plan.Smooth) : (plan.reports.map Prod.fst).Nodup := by
  refine h.names.sublist ?_
  rw [Plan.reports]
  induction plan.classes with
  | nil => exact List.Sublist.refl _
  | cons c later ih =>
      rw [List.map_cons]
      cases hlines : (plan.answer c).lines? c.1.binaryName with
      | none =>
          rw [List.filterMap_cons, hlines]
          exact ih.cons _
      | some lines =>
          rw [List.filterMap_cons, hlines]
          obtain ⟨s, -, hreport⟩ := Option.bind_eq_some_iff.1 hlines
          obtain ⟨report, -, rfl⟩ := Option.map_eq_some_iff.1 hreport
          exact ih.cons_cons _

/-- **A smooth plan has one outcome**, in whatever order its events happen. -/
theorem outcome_of_ended (hplan : plan.Smooth) {events : List Event}
    (hrun : (Pool.initial plan).follow plan events = some p) (hended : p.ended = true) :
    ∃ w, p.outcome = .ok (w, plan.stats.sourcesWritten, plan.stats.sourceBytes)
      ∧ w.builder.entries.Perm plan.entries
      ∧ w.builder.dirs.size = plan.stats.directories
      ∧ p.lines = plan.lineTable := by
  obtain ⟨past, hsound⟩ := (sound_initial plan).follow hrun
  have hcalm := hsound.ended_calm hplan hended
  obtain ⟨w, sources, bytes, hw, hwrote⟩ := hcalm.finished
  have hfiles := hcalm.files_perm hsound
  have hdata : (past.written.map Delivery.file).Perm (plan.sources.map DecompiledClass.file) :=
    hfiles.cons_inv
  have hsources : sources = plan.stats.sourcesWritten := by
    rw [hwrote.sources_eq, ← List.length_map Delivery.file, hdata.length_eq, List.length_map]
    rfl
  have hbytes : bytes = plan.stats.sourceBytes := by
    have hsizes := (hdata.map fun file => file.2.length).sum_nat
    rw [List.map_map, List.map_map] at hsizes
    exact hwrote.bytes_eq.trans hsizes
  obtain ⟨b, hbuilt, hlists⟩ := hsound.genuine_written.exists_addFiles hplan
  obtain rfl : b = w.builder := congrArg Prod.snd (hbuilt.symm.trans hwrote.built)
  have hdirs : w.builder.dirs.keys.Perm plan.directories :=
    hlists.keys_perm.trans (hfiles.flatMap_right _).dedup
  refine ⟨w, ?_, ?_, ?_, ?_⟩
  · rw [hsound.outcome_of_ended hw hcalm.workers, hsources, hbytes]
  · exact hlists.entries.trans ((hfiles.map _).append (hdirs.map _))
  · rw [SortedMap.size, ← List.length_map Prod.fst]
    exact hdirs.length_eq
  · rw [hsound.lines]
    exact LineTable.insertEach_eq (hcalm.reports_perm hsound) hplan.reports_nodup

end Nomenclator.Decompile
