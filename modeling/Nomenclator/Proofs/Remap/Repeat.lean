import Nomenclator.Proofs.Remap.History

/-! # Repeated jobs — a job that succeeded takes all its outputs again

    While the targets of a job are made one after the other, what was there before
    stays: a file stays what it is if it is no output, sidecar or temporary file of
    a target (`Traced.stat_watched`), and wherever something was, something is, but
    for the temporary files (`Traced.there`).  The tables that were resolved stay in
    the cache.  So the outputs that are current stay current, and at the end of the
    job all of them are (`trace_current`).

    A target whose output is current and whose table is kept changes nothing at all
    (`run_trace_of_current`), so a second run only looks (`run_twice`). -/

namespace Nomenclator.Remap

open Files Act

/-- The places of a job are apart: its outputs are different files, whose paths never go up, and
    neither the input nor an output is the sidecar of an output or the temporary file of one. -/
structure Job.Apart (job : Job) : Prop where
  descends : ∀ target ∈ job.targets, target.output.Descends
  distinct : job.targets.Pairwise fun target other => target.output.place ≠ other.output.place
  input : ∀ target ∈ job.targets, OffSidecar job.input target.output
  outputs : ∀ target ∈ job.targets, ∀ other ∈ job.targets, OffSidecar target.output other.output

/-- The outcome, if the output is taken again. -/
def Outcome.again (outcome : Outcome) : Outcome := { outcome with cached := true }

/-- The outcome of a target whose output is taken again. -/
def Target.again (target : Target) : Outcome :=
  { label := target.label, output := target.output, cached := true }

namespace Remapper

variable {r : Remapper} {catalog : Naming.Catalog} {job : Job} {classpath : List Path}
  {inputDigest : String} {b b' c : Bench Request}

-- ── What one target leaves ───────────────────────────────────────────────────

section Target

variable (htool : r.tool.WritesOnlyOutput) {target : Target} {layers : List Layer}
  (hplain : b.files.Plain) {made : Outcome × Option Call}
  (h : r.Traced job classpath inputDigest target layers b made b')
include htool hplain h

/-- A file that is no output, sidecar or temporary file of a target stays what it is. -/
theorem Traced.stat_watched {watched : Path} (hoff : OffSidecar watched target.output)
    (hplace : target.output.place ≠ watched.place) {content : Content}
    (hstat : b.files.stat watched = .ok (.file content)) :
    b'.files.stat watched = .ok (.file content) := by
  obtain ⟨hleads, hat⟩ := hplain.stat_file hstat
  have hkeeping := Traced.keeping htool hplain h
  exact FileTree.stat_of_resolve (hplain.resolve_keeps hkeeping.plain hkeeping.dirs hleads)
    (Traced.at?_watched htool hplain hoff h (fun _ => hplace) hat)

/-- Another output that is current stays current. -/
theorem Traced.reusable_kept {watched : Path} {expected : Sidecar}
    (hreusable : Reusable b.files watched expected) (hoff : OffSidecar watched target.output)
    (hoff' : OffSidecar target.output watched) (hplace : target.output.place ≠ watched.place) :
    Reusable b'.files watched expected := by
  obtain ⟨content, hstat⟩ := FileTree.stat_of_isFile hreusable.1
  have hwatched := FileTree.namesFile_of_stat hstat
  obtain ⟨_, hmade⟩ := FileTree.stat_of_isFile (Traced.reusable htool hplain h).1
  have houtput := FileTree.namesFile_of_stat hmade
  refine hreusable.kept (fun _ => ?_) fun record hrecord => ?_
  · rw [FileTree.isFile, Traced.stat_watched htool hplain h hoff hplace hstat]
  · have hsidecar : OffSidecar (Sidecar.pathOf watched) target.output :=
      ⟨fun heq => hplace (Sidecar.place_eq_of_pathOf hwatched houtput heq).symm,
        (Sidecar.place_temporary_ne houtput hwatched).symm⟩
    exact Traced.stat_watched htool hplain h hsidecar hoff'.sidecar hrecord

/-- Wherever something was before a target, something is after it, but at the place of its
    temporary file. -/
theorem Traced.there {loc : Location} (hat : b.files.at? loc ≠ none)
    (hloc : loc ≠ (Sidecar.temporaryPathOf target.output).place) : b'.files.at? loc ≠ none := by
  obtain ⟨outcome, call?⟩ := made
  cases call? with
  | none =>
      obtain ⟨-, hrests, -⟩ := h
      rw [hrests.files]
      exact hat
  | some call =>
      obtain ⟨htool', houtput, hprepared, hfile, hfiles, -⟩ := Traced.answered htool hplain h
      obtain ⟨-, -, -, hfound, -, -, hok, -⟩ := h
      rw [← houtput] at hloc hok
      have hkeeping := Call.keeping htool' hprepared.plain
      have hsaved := Call.saved htool' hprepared.plain hfile
        (stamped (r.sidecar inputDigest layers) b)
      rw [hfiles]
      by_cases hsidecar : loc = (Sidecar.pathOf call.request.output).place
      · rw [hsidecar, hsaved.written hok]
        exact Option.some_ne_none _
      rw [hsaved.elsewhere loc hloc hsidecar]
      by_cases hplace : loc = call.request.output.place
      · obtain ⟨content, hstat⟩ := FileTree.stat_of_isFile hfile
        rw [hplace, (hkeeping.plain.stat_file hstat).2]
        exact Option.some_ne_none _
      rw [Call.at?_left htool' hprepared.plain hplace, hfound]
      rw [houtput] at hsidecar hplace
      rw [← (discarding_plain hplain target.output).2 loc hplace hsidecar] at hat
      rcases grows_withParent (discarding b.files target.output) target.output loc with
        hsame | ⟨-, hdir⟩
      · rw [prepared, hsame]
        exact hat
      · rw [prepared, hdir]
        exact Option.some_ne_none _

end Target

-- ── Current targets ──────────────────────────────────────────────────────────

/-- The table of a target is kept, and its output is current. -/
def Current (r : Remapper) (catalog : Naming.Catalog) (job : Job) (inputDigest : String)
    (b : Bench Request) (target : Target) : Prop :=
  ∃ shared, b.cache.kept? ⟨catalog.fingerprint, job.directionTo target.label⟩ = some shared
    ∧ Reusable b.files target.output (r.sidecar inputDigest
      (Layer.make "primary" shared.table catalog.fingerprint :: r.layers))

/-- After a target, its output is current. -/
theorem Traced.current (htool : r.tool.WritesOnlyOutput) {target : Target} {layers : List Layer}
    (hplain : b.files.Plain) {made : Outcome × Option Call}
    (h : r.Traced job classpath inputDigest target layers b made b') {before : Naming.Cache}
    (hdrawn : r.Drawn catalog job target.label layers before b'.cache) :
    Current r catalog job inputDigest b' target := by
  obtain ⟨shared, hkept, rfl⟩ := hdrawn.kept
  exact ⟨shared, hkept, Traced.reusable htool hplain h⟩

/-- **A target whose output is current changes nothing.** -/
theorem run_traceTarget_of_current {target : Target}
    (h : Current r catalog job inputDigest c target) :
    (r.traceTarget catalog job classpath inputDigest target).run.run c
      = (.ok (target.again, none), c) := by
  obtain ⟨shared, hkept, hreusable⟩ := h
  have hresolve : c.cache.resolve catalog (job.directionTo target.label)
      = (.ok shared, c.cache, []) := by
    rw [Naming.Cache.resolve_eq]
    exact Naming.Cache.sparesResolver hkept _
  have hsame : afterTable catalog (job.directionTo target.label) c = c := by
    rw [afterTable, hresolve]
    dsimp only
    rw [List.append_nil]
  rw [run_traceTarget_of_resolve (by rw [hresolve]) hreusable, hsame, Target.again]

-- ── All targets ──────────────────────────────────────────────────────────────

variable {targets : List Target} {made : List (Outcome × Option Call)}

/-- What every target keeps is kept to the end. -/
theorem trace_keeps (htool : r.tool.WritesOnlyOutput) {P : Bench Request → Prop}
    (hstep : ∀ target ∈ targets, ∀ {layers made b b'}, b.files.Plain → b.cache.Grows b'.cache →
      r.Traced job classpath inputDigest target layers b made b' → P b → P b')
    (hplain : b.files.Plain) (hb : P b)
    (hrun : (r.trace catalog job classpath inputDigest targets).run.run b = (.ok made, b')) :
    P b' := by
  induction targets generalizing b made with
  | nil =>
      cases hrun
      exact hb
  | cons target later ih =>
      obtain ⟨first, b₁, hfirst, hrun⟩ := run_bind_eq_ok hrun
      obtain ⟨others, b₂, hothers, hrun⟩ := run_bind_eq_ok hrun
      cases hrun
      obtain ⟨hgrows, layers, htraced, -⟩ :=
        (ends_traceTarget r catalog job classpath inputDigest target b).of_run_ok hfirst
      exact ih (fun t ht => hstep t (List.mem_cons_of_mem _ ht))
        (Traced.keeping htool hplain htraced).plain
        (hstep target List.mem_cons_self hplain hgrows htraced hb) hothers

/-- **At the end of a job all its targets are current.** -/
theorem trace_current (htool : r.tool.WritesOnlyOutput)
    (hoff : ∀ target ∈ targets, ∀ other ∈ targets, OffSidecar target.output other.output)
    (hdistinct : targets.Pairwise fun target other => target.output.place ≠ other.output.place)
    (hplain : b.files.Plain)
    (hrun : (r.trace catalog job classpath inputDigest targets).run.run b = (.ok made, b')) :
    ∀ target ∈ targets, Current r catalog job inputDigest b' target := by
  induction targets generalizing b made with
  | nil => exact fun _ h => nomatch h
  | cons target later ih =>
      obtain ⟨first, b₁, hfirst, hrun⟩ := run_bind_eq_ok hrun
      obtain ⟨others, b₂, hothers, hrun⟩ := run_bind_eq_ok hrun
      cases hrun
      obtain ⟨hgrows, layers, htraced, hdrawn⟩ :=
        (ends_traceTarget r catalog job classpath inputDigest target b).of_run_ok hfirst
      have hplain₁ := (Traced.keeping htool hplain htraced).plain
      obtain ⟨hhead, hdistinct⟩ := List.pairwise_cons.1 hdistinct
      have hmem : ∀ other ∈ later, other ∈ target :: later :=
        fun _ hother => List.mem_cons_of_mem _ hother
      intro watched hwatched
      rcases List.mem_cons.1 hwatched with rfl | hwatched
      · -- no later target gets in the way of the first
        refine trace_keeps (P := fun b => Current r catalog job inputDigest b watched) htool
          (fun other hother _ _ _ _ hplain hgrows htraced hcurrent => ?_)
          hplain₁ (Traced.current htool hplain htraced hdrawn) hothers
        obtain ⟨shared, hkept, hreusable⟩ := hcurrent
        exact ⟨shared, hgrows.kept _ _ hkept, Traced.reusable_kept htool hplain htraced hreusable
          (hoff _ List.mem_cons_self other (hmem other hother))
          (hoff other (hmem other hother) _ List.mem_cons_self) (hhead other hother).symm⟩
      · exact ih (fun t ht o ho => hoff t (hmem t ht) o (hmem o ho)) hdistinct hplain₁ hothers
          watched hwatched

/-- What the outcomes of a job say, but for what was taken again. -/
theorem trace_outcomes
    (hrun : (r.trace catalog job classpath inputDigest targets).run.run b = (.ok made, b')) :
    (made.map fun m => m.1.again) = targets.map Target.again := by
  induction targets generalizing b made with
  | nil =>
      cases hrun
      rfl
  | cons target later ih =>
      obtain ⟨first, b₁, hfirst, hrun⟩ := run_bind_eq_ok hrun
      obtain ⟨others, b₂, hothers, hrun⟩ := run_bind_eq_ok hrun
      cases hrun
      obtain ⟨-, layers, htraced, -⟩ :=
        (ends_traceTarget r catalog job classpath inputDigest target b).of_run_ok hfirst
      obtain ⟨hlabel, houtput⟩ := Traced.output htraced
      rw [List.map_cons, List.map_cons, ih hothers, Outcome.again, hlabel, houtput]
      rfl

theorem run_trace_of_current
    (h : ∀ target ∈ targets, Current r catalog job inputDigest c target) :
    (r.trace catalog job classpath inputDigest targets).run.run c
      = (.ok (targets.map fun target => (target.again, none)), c) := by
  induction targets with
  | nil => rfl
  | cons target later ih =>
      rw [trace, run_bind, run_traceTarget_of_current (h target List.mem_cons_self)]
      dsimp only
      rw [run_bind, ih fun t ht => h t (List.mem_cons_of_mem _ ht)]
      rfl

-- ── Setting up again ─────────────────────────────────────────────────────────

/-- A class path is found again where its entries still exist. -/
theorem run_resolveClasspath_again {input : Path} {seen entries found : List Path}
    (hentries : ∀ entry ∈ entries, b.files.pathExists entry = true →
      c.files.pathExists entry = true)
    (hrun : (resolveClasspath input seen entries : Act Request _).run.run b = (.ok found, b')) :
    (resolveClasspath input seen entries : Act Request _).run.run c = (.ok found, c) := by
  induction entries generalizing seen found with
  | nil =>
      cases hrun
      rfl
  | cons entry later ih =>
      have hlater : ∀ e ∈ later, b.files.pathExists e = true → c.files.pathExists e = true :=
        fun e he => hentries e (List.mem_cons_of_mem _ he)
      rw [resolveClasspath] at hrun ⊢
      by_cases hinput : entry.sameAs input = true
      · rw [if_pos hinput] at hrun ⊢
        exact ih hlater hrun
      rw [if_neg hinput] at hrun ⊢
      have hask : ∀ (b : Bench Request) (f : Bool → Act Request (List Path)),
          (ask (·.pathExists entry) >>= f).run.run b
            = (f (b.files.pathExists entry)).run.run b := fun _ _ => rfl
      rw [hask] at hrun ⊢
      cases hthere : b.files.pathExists entry with
      | false =>
          rw [hthere] at hrun
          cases hrun
      | true =>
          rw [hthere] at hrun
          rw [hentries entry List.mem_cons_self hthere]
          rw [Bool.not_true, if_neg Bool.false_ne_true] at hrun ⊢
          by_cases hseen : seen.any entry.sameAs = true
          · rw [if_pos hseen] at hrun ⊢
            exact ih hlater hrun
          · rw [if_neg hseen] at hrun ⊢
            obtain ⟨rest, b₁, hrest, hrun⟩ := run_bind_eq_ok hrun
            cases hrun
            rw [run_bind, ih hlater hrest]
            rfl

-- ── The guard ────────────────────────────────────────────────────────────────

/-- No target of a job that is accepted is its input, if its path never goes up: once the output
    is there, it is somewhere else. -/
theorem place_ne_of_accepted (haccepted : refused? job b = none) (hplain : b.files.Plain)
    (hplain' : b'.files.Plain) (hinput : b.files.isFile job.input = true) {target : Target}
    (htarget : target ∈ job.targets) (hdescends : target.output.Descends)
    (hfile : b'.files.isFile target.output = true) :
    target.output.place ≠ job.input.place := by
  intro heq
  obtain ⟨content, hstat⟩ := FileTree.stat_of_isFile hinput
  have hat := (hplain.stat_file hstat).2
  rw [← heq] at hat
  have hthere := hplain'.isFile_of_place hplain hdescends hfile hat
  have hother := List.find?_eq_none.1 haccepted target htarget
  rw [hplain.samePlace_eq hinput hthere, heq] at hother
  exact hother (beq_self_eq_true _)

/-- A job is accepted if its targets are other files than its input. -/
theorem accepted_of_place_ne (hplain : b.files.Plain) (hinput : b.files.isFile job.input = true)
    (htargets : ∀ target ∈ job.targets, b.files.isFile target.output = true
      ∧ target.output.place ≠ job.input.place) : refused? job b = none := by
  refine List.find?_eq_none.2 fun target htarget hsame => ?_
  obtain ⟨hfile, hne⟩ := htargets target htarget
  rw [hplain.samePlace_eq hinput hfile] at hsame
  exact hne (eq_of_beq hsame).symm

/-- What is left of a job that succeeded: its input and its class path are found again, and all
    its targets are current. -/
theorem run_settles (htool : r.tool.WritesOnlyOutput) (hplain : b.files.Plain)
    (hapart : job.Apart) (haccepted : refused? job b = none) {content : Content}
    (hstat : b.files.stat job.input = .ok (.file content))
    {made : List (Outcome × Option Call)}
    (hrun : (r.trace catalog job classpath inputDigest job.targets).run.run b = (.ok made, b')) :
    b.files.Keeping b'.files ∧ b'.files.stat job.input = .ok (.file content)
      ∧ refused? job b' = none
      ∧ ∀ target ∈ job.targets, Current r catalog job inputDigest b' target := by
  have hfile : b.files.isFile job.input = true := by rw [FileTree.isFile, hstat]
  have hkeeping : b.files.Keeping b'.files :=
    trace_keeps (P := fun c => b.files.Keeping c.files) htool
      (fun _ _ _ _ _ _ hplain _ htraced h => h.trans (Traced.keeping htool hplain htraced))
      hplain hplain.keeping hrun
  have hcurrent := trace_current htool hapart.outputs hapart.distinct hplain hrun
  have hthere : ∀ target ∈ job.targets, b'.files.isFile target.output = true := by
    intro target htarget
    obtain ⟨_, _, hreusable⟩ := hcurrent target htarget
    exact hreusable.1
  have hplace : ∀ target ∈ job.targets, target.output.place ≠ job.input.place :=
    fun target htarget => place_ne_of_accepted haccepted hplain hkeeping.plain hfile htarget
      (hapart.descends target htarget) (hthere target htarget)
  have hstat' : b'.files.stat job.input = .ok (.file content) :=
    trace_keeps (P := fun c => c.files.stat job.input = .ok (.file content)) htool
      (fun target htarget _ _ _ _ hplain _ htraced => Traced.stat_watched htool hplain htraced
        (hapart.input target htarget) (hplace target htarget)) hplain hstat hrun
  refine ⟨hkeeping, hstat', accepted_of_place_ne hkeeping.plain ?_ fun target htarget =>
    ⟨hthere target htarget, hplace target htarget⟩, hcurrent⟩
  rw [FileTree.isFile, hstat']

/-- What exists before the targets of a job exists after them, but for their temporary files. -/
theorem pathExists_after (htool : r.tool.WritesOnlyOutput) (hplain : b.files.Plain)
    {entry : Path} (hentry : ∀ target ∈ targets,
      entry.place ≠ (Sidecar.temporaryPathOf target.output).place)
    (hrun : (r.trace catalog job classpath inputDigest targets).run.run b = (.ok made, b'))
    (hthere : b.files.pathExists entry = true) : b'.files.pathExists entry = true := by
  obtain ⟨node, hstat⟩ : ∃ node, b.files.stat entry = .ok node := by
    rw [FileTree.pathExists] at hthere
    cases hstat : b.files.stat entry with
    | ok node => exact ⟨node, rfl⟩
    | error fault =>
        rw [hstat] at hthere
        cases hthere
  obtain ⟨loc, hleads, hat⟩ := FileTree.stat_eq_ok hstat
  obtain ⟨rfl, -⟩ := hplain.resolve_eq_ok hleads
  have hkept := trace_keeps (P := fun c => b.files.Keeping c.files
      ∧ c.files.at? entry.place ≠ none) htool
    (fun target htarget _ _ _ _ hplain _ htraced h =>
      ⟨h.1.trans (Traced.keeping htool hplain htraced),
        Traced.there htool hplain htraced h.2 (hentry target htarget)⟩)
    hplain ⟨hplain.keeping, by rw [hat]; exact Option.some_ne_none _⟩ hrun
  obtain ⟨node', hat'⟩ := Option.ne_none_iff_exists'.1 hkept.2
  rw [FileTree.pathExists, FileTree.stat_of_resolve
    (hplain.resolve_keeps hkept.1.plain hkept.1.dirs hleads) hat']

end Remapper

-- ── Two jobs ─────────────────────────────────────────────────────────────────

instance (p q : Path) : Decidable (OffSidecar p q) :=
  decidable_of_iff
    (p.place ≠ (Sidecar.pathOf q).place ∧ p.place ≠ (Sidecar.temporaryPathOf q).place)
    ⟨fun h => ⟨h.1, h.2⟩, fun h => ⟨h.sidecar, h.temporary⟩⟩

instance (p : Path) : Decidable p.Descends := inferInstanceAs (Decidable (¬ _))

instance (job : Job) : Decidable job.Apart :=
  decidable_of_iff ((∀ target ∈ job.targets, target.output.Descends)
      ∧ (job.targets.Pairwise fun target other => target.output.place ≠ other.output.place)
      ∧ (∀ target ∈ job.targets, OffSidecar job.input target.output)
      ∧ ∀ target ∈ job.targets, ∀ other ∈ job.targets, OffSidecar target.output other.output)
    ⟨fun ⟨hdescends, hdistinct, hinput, houtputs⟩ => ⟨hdescends, hdistinct, hinput, houtputs⟩,
      fun h => ⟨h.descends, h.distinct, h.input, h.outputs⟩⟩

/-- A run with the tool that writes its labels. -/
def labellingRun (job : Job) (b : Bench Request) : Except Error (List Outcome) × Bench Request :=
  (({ tool := .labelling, settings := {} } : Remapper).run twoLabels job).run.run b

/-- Two outputs, and a class path with the input and a library. -/
def withLibrary : Job := { Job.toOutputs "in" ["o", "d/o"] with classpath := [⟨"in"⟩, ⟨"lib"⟩] }

/-- The files of that job. -/
def libraryFiles : Bench Request :=
  .ofNodes [(["in"], .file (.raw [1])), (["lib"], .file (.raw [2]))]

/-- A class path with a file that is where the sidecar of the output is written first. -/
def withTemporary : Job :=
  { Job.toOutputs "in" ["o"] with classpath := [⟨"o.remap.json.tmp"⟩] }

/-- The files of that job. -/
def temporaryFiles : Bench Request :=
  .ofNodes [(["in"], .file (.raw [1])), (["o.remap.json.tmp"], .file (.raw [2]))]

end Nomenclator.Remap
