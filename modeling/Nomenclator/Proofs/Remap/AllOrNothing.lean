import Nomenclator.Proofs.Files.Removal
import Nomenclator.Proofs.Remap.Target

/-! # Jobs — all targets or none

    A job that fails discards the outputs of all its targets, whichever of them it
    had reached, and drops all tables.  What has been discarded stays away while the
    other outputs are, since discarding brings nothing back (`sheds_discarding`).

    The one error that a job has before it touches anything is that of a target
    that is its input; no later step has it (`ends_makeTarget`). -/

namespace Nomenclator.Remap

open Files Act

-- ── Discarding ───────────────────────────────────────────────────────────────

theorem sheds_withoutOutput (t : FileTree) (output : Path) : t.Sheds (withoutOutput t output) := by
  rcases withoutOutput_cases t output with hsame | hremove
  · rw [hsame]
    exact .refl t
  · exact FileTree.sheds_removeFile hremove

theorem isFile_withoutOutput (t : FileTree) (output : Path) :
    (withoutOutput t output).isFile output = false := by
  cases hfile : t.isFile output with
  | false => exact (sheds_withoutOutput t output).isFile hfile
  | true =>
      obtain ⟨t', hremove⟩ := FileTree.removeFile_of_isFile hfile
      obtain ⟨content, hstat⟩ := FileTree.stat_of_isFile hfile
      have hexists : t.pathExists output = true := by rw [FileTree.pathExists, hstat]
      rw [withoutOutput, if_pos hexists, hremove]
      exact FileTree.isFile_of_removeFile hremove

theorem Sidecar.sheds_discard (t : FileTree) (output : Path) : t.Sheds (discard t output) := by
  rw [discard]
  cases hremove : t.removeFile (pathOf output) with
  | ok t' => exact FileTree.sheds_removeFile hremove
  | error f => exact .refl t

theorem Sidecar.isFile_discard (t : FileTree) (output : Path) :
    (discard t output).isFile (pathOf output) = false := by
  cases hfile : t.isFile (pathOf output) with
  | false => exact (sheds_discard t output).isFile hfile
  | true =>
      obtain ⟨t', hremove⟩ := FileTree.removeFile_of_isFile hfile
      rw [discard, hremove]
      exact FileTree.isFile_of_removeFile hremove

theorem sheds_discarding (t : FileTree) (output : Path) : t.Sheds (discarding t output) :=
  (sheds_withoutOutput t output).trans (Sidecar.sheds_discard _ output)

/-- Neither an output nor its sidecar is there. -/
def Gone (t : FileTree) (output : Path) : Prop :=
  t.isFile output = false ∧ t.isFile (Sidecar.pathOf output) = false

theorem Gone.of_sheds {t t' : FileTree} {output : Path} (h : Gone t output) (hsheds : t.Sheds t') :
    Gone t' output :=
  ⟨hsheds.isFile h.1, hsheds.isFile h.2⟩

theorem gone_discarding (t : FileTree) (output : Path) : Gone (discarding t output) output :=
  ⟨(Sidecar.sheds_discard _ output).isFile (isFile_withoutOutput t output),
    Sidecar.isFile_discard _ output⟩

/-- What is left when the outputs of targets have been discarded. -/
def discardingAll (t : FileTree) (targets : List Target) : FileTree :=
  targets.foldl (fun t target => discarding t target.output) t

theorem sheds_discardingAll (t : FileTree) (targets : List Target) :
    t.Sheds (discardingAll t targets) := by
  rw [discardingAll]
  induction targets generalizing t with
  | nil => exact .refl t
  | cons target later ih => exact (sheds_discarding t target.output).trans (ih _)

theorem gone_discardingAll (t : FileTree) {targets : List Target} {target : Target}
    (htarget : target ∈ targets) : Gone (discardingAll t targets) target.output := by
  induction targets generalizing t with
  | nil => exact nomatch htarget
  | cons first later ih =>
      rcases List.mem_cons.1 htarget with rfl | hlater
      · exact (gone_discarding t target.output).of_sheds (sheds_discardingAll _ later)
      · exact ih _ hlater

namespace Remapper

theorem ends_discardAll (targets : List Target) (b : Bench Request)
    {E : Error → Bench Request → Prop} :
    Ends (discardAll targets) b
      (fun _ b' => Bench.Rests { b with files := discardingAll b.files targets } b') E := by
  induction targets generalizing b with
  | nil => exact ends_pure (.refl b)
  | cons target later ih =>
      refine (ends_discardOutput target.output b).bind fun _ b₁ hb₁ => ?_
      refine (ih b₁).mono (fun _ b₂ hb₂ => ?_) fun _ _ h => h
      have hrests := (hb₁.withFiles _).trans hb₂
      rwa [hb₁.files] at hrests

-- ── Making targets ───────────────────────────────────────────────────────────

/-- A target is made or taken again, and keeps its label and its output; or the job fails for
    another reason than a target that is its input. The cache stays in its generation. -/
theorem ends_makeTarget (r : Remapper) (catalog : Naming.Catalog) (job : Job)
    (classpath : List Path) (inputDigest : String) (force : Bool) (target : Target)
    (b : Bench Request) :
    Ends (r.makeTarget catalog job classpath inputDigest force target) b
      (fun outcome b' => b'.cache.generation = b.cache.generation
        ∧ (outcome.label, outcome.output) = (target.label, target.output))
      (fun e b' => b'.cache.generation = b.cache.generation ∧ e.refusesOutput = false) := by
  rw [makeTarget_eq]
  refine (ends_prepare r catalog job classpath inputDigest force target b).mono (fun _ _ h => h)
    (fun e b' ⟨hlate, t, _, hrests⟩ => ⟨hrests.generation, hlate⟩) |>.bind fun found b₁ hb₁ => ?_
  obtain ⟨layers, hprepared, -⟩ := hb₁
  cases found with
  | none => exact ends_pure ⟨hprepared.1.generation, rfl⟩
  | some request =>
      have hgeneration := hprepared.1.generation
      refine (ends_runTool r _ request b₁).mono (fun _ _ h => h)
        (fun e b' h => ⟨h.1 ▸ hgeneration, h.2⟩) |>.bind fun _ b₂ hb₂ => ?_
      have hgeneration₂ : b₂.cache.generation = b.cache.generation := hb₂.1 ▸ hgeneration
      refine (ends_saveSidecar target.output _ b₂).mono (fun _ _ h => h)
        (fun e b' h => ⟨h.1 ▸ hgeneration₂, h.2⟩) |>.bind fun _ b₃ hb₃ => ?_
      exact ends_pure ⟨hb₃.2 ▸ hgeneration₂, rfl⟩

theorem ends_makeTargets (r : Remapper) (catalog : Naming.Catalog) (job : Job)
    (classpath : List Path) (inputDigest : String) (force : Bool) (targets : List Target)
    (b : Bench Request) :
    Ends (r.makeTargets catalog job classpath inputDigest force targets) b
      (fun outcomes b' => b'.cache.generation = b.cache.generation
        ∧ outcomes.map (fun o => (o.label, o.output)) = targets.map fun t => (t.label, t.output))
      (fun e b' => b'.cache.generation = b.cache.generation ∧ e.refusesOutput = false) := by
  induction targets generalizing b with
  | nil => exact ends_pure ⟨rfl, rfl⟩
  | cons target later ih =>
      refine (ends_makeTarget r catalog job classpath inputDigest force target b).bind
        fun outcome b₁ hb₁ => ?_
      refine (ih b₁).mono (fun _ _ h => h) (fun e b' h => ⟨h.1.trans hb₁.1, h.2⟩)
        |>.bind fun outcomes b₂ hb₂ => ?_
      refine ends_pure ⟨hb₂.1.trans hb₁.1, ?_⟩
      rw [List.map_cons, List.map_cons, hb₁.2, hb₂.2]

theorem ends_produce (r : Remapper) (catalog : Naming.Catalog) (job : Job) (force : Bool)
    (b : Bench Request) :
    Ends (r.produce catalog job force) b
      (fun outcomes b' => b'.cache.generation = b.cache.generation
        ∧ outcomes.map (fun o => (o.label, o.output)) = job.targets.map fun t => (t.label, t.output))
      (fun e b' => b'.cache.generation = b.cache.generation ∧ e.refusesOutput = false) := by
  rw [produce_eq]
  refine (ends_setUp job b).mono (fun _ _ h => h) (fun e b' h => ⟨by rw [h.1], h.2⟩)
    |>.bind fun found b₁ hb₁ => ?_
  rw [hb₁.1]
  exact ends_makeTargets r catalog job found.1 found.2 force job.targets b

-- ── Jobs ─────────────────────────────────────────────────────────────────────

/-- What is left of a bench when a job has failed after it had begun. -/
structure CleanedUp (job : Job) (b b' : Bench Request) : Prop where
  outputs : ∀ target ∈ job.targets, Gone b'.files target.output
  tables : b'.cache.entries = []
  generation : b'.cache.generation = (b.cache.generation + 1) % Naming.Cache.counterSize

theorem ends_runJob (r : Remapper) (catalog : Naming.Catalog) (job : Job) (force : Bool)
    (b : Bench Request) :
    Ends (r.runJob catalog job force) b
      (fun outcomes _ => outcomes.map (fun o => (o.label, o.output))
        = job.targets.map fun t => (t.label, t.output))
      (fun e b' => (∃ target ∈ job.targets, b.files.samePlace job.input target.output = true
          ∧ e = .outputIsInput target.output ∧ b' = b)
        ∨ (e.refusesOutput = false ∧ CleanedUp job b b')) := by
  rw [runJob]
  refine ends_get_bind ?_
  dsimp only
  cases hfind : job.targets.find? fun target => b.files.samePlace job.input target.output with
  | some target =>
      have hsame := List.find?_some hfind
      exact ends_throw (.inl ⟨target, List.mem_of_find?_eq_some hfind, hsame, rfl, rfl⟩)
  | none =>
      refine ((ends_produce r catalog job force b).orElseDo fun e b₁ hb₁ => ?_).mono
        (fun _ _ h => h.2) fun _ _ h => .inr h
      refine (ends_report _ _ b₁).bind fun _ b₂ hb₂ => ?_
      refine (ends_discardAll job.targets b₂).bind fun _ b₃ hb₃ => ?_
      refine (ends_invalidateCache b₃).bind fun _ b₄ hb₄ => ends_pure ⟨hb₁.2, ?_, ?_, ?_⟩
      · intro target htarget
        rw [hb₄.1, hb₃.files]
        exact gone_discardingAll b₂.files htarget
      · rw [hb₄.2]
        rfl
      · have hgeneration := (hb₃.generation.trans hb₂.generation).trans hb₁.1
        rw [hb₄.2, ← hgeneration]
        rfl

/-- **All targets or none.** A job that is refused because a target is its input changes
    nothing.  After any other failure, no target has an output or a sidecar, whether it was
    made, not reached, or there before, all tables are dropped and the cache is one generation
    further, in a counter of 64 bits.  A success tells one outcome for every target, in order. -/
theorem run_all_or_nothing (r : Remapper) (catalog : Naming.Catalog) (job : Job)
    (b : Bench Request) :
    match (r.run catalog job).run.run b with
    | (.error (.outputIsInput output), b') =>
      b'.files = b.files ∧ b'.cache = b.cache
        ∧ ∃ target ∈ job.targets, target.output = output
          ∧ b.files.samePlace job.input output = true
    | (.error _, b') =>
      (∀ target ∈ job.targets, b'.files.isFile target.output = false
          ∧ b'.files.isFile (Sidecar.pathOf target.output) = false)
        ∧ b'.cache.entries = []
        ∧ b'.cache.generation = (b.cache.generation + 1) % Naming.Cache.counterSize
    | (.ok outcomes, _) =>
      outcomes.map (fun o => (o.label, o.output))
        = job.targets.map fun t => (t.label, t.output) := by
  have hends := (ends_runJob r catalog job false b).holds
  rw [← run] at hends
  generalize (r.run catalog job).run.run b = out at hends
  obtain ⟨result, b'⟩ := out
  cases result with
  | ok outcomes => exact hends
  | error e =>
      rcases hends with ⟨target, htarget, hsame, rfl, rfl⟩ | ⟨hlate, hclean⟩
      · exact ⟨rfl, rfl, target, htarget, rfl, hsame⟩
      · cases e with
        | outputIsInput p => exact nomatch hlate
        | _ => exact ⟨hclean.outputs, hclean.tables, hclean.generation⟩

end Remapper

end Nomenclator.Remap
