import Nomenclator.Proofs.Files.Trail
import Nomenclator.Proofs.Remap.Act

/-! # Remapping keeps its input

    A job refuses a target that is its input, as far as the tree can tell when the
    job starts.  Afterwards it removes outputs and sidecars, creates directories,
    runs its tool and writes sidecars through temporary files.  All of these act on
    paths, and what a path means can change while the job runs.

    * **Sites** — the locations that the job may replace, planned ahead for
      directories that come only while it runs;
    * **Spares** — no site lies on the route of the input or on the way to another
      site, and links are not written through where the job makes things.  The job
      does not check this itself; the runs at the end lose their input, and show that
      no part of the condition can be left out;
    * **Keeps** — what every step preserves: the route of the input stands, the ways
      are as planned, and links are new only where the job has made something. -/

namespace Nomenclator.Remap

open Files

/-- The tool changes nothing but what is at the output of its request, where it is named or
    where it leads to, and never a directory that is not empty. -/
def Tool.TouchesOnlyOutput (tool : Tool) : Prop :=
  ∀ request t, FileTree.Touches
    (fun site => (t.entryAt request.output = .ok site ∨ t.resolve .target request.output = .ok site)
      ∧ t.Replaceable site)
    t (tool.run request t).2

/-- None of the sites is at or above one of the locations. -/
def Apart (sites locs : List Location) : Prop :=
  ∀ site ∈ sites, ∀ loc ∈ locs, FileTree.isWithin site loc = false

instance (sites locs : List Location) : Decidable (Apart sites locs) :=
  inferInstanceAs (Decidable (∀ site ∈ sites, ∀ loc ∈ locs, FileTree.isWithin site loc = false))

-- ── Where a job works ────────────────────────────────────────────────────────

namespace Target

/-- The path of the sidecar. -/
def sidecar (target : Target) : Path := Sidecar.pathOf target.output

/-- The path at which the sidecar is written first. -/
def temporary (target : Target) : Path := Sidecar.temporaryPathOf target.output

/-- The locations on the way to the output, its sidecar and the temporary file. -/
def ways (target : Target) (t : FileTree) : List Location :=
  (t.entryTrail target.output).ways ++ (t.trailOf .target target.output).ways
    ++ (t.entryTrail target.sidecar).ways
    ++ (t.entryTrail target.temporary).ways ++ (t.trailOf .place target.temporary).ways

/-- Where the output may be found through links, or written. -/
def outputEnds (target : Target) (t : FileTree) : List Location :=
  (t.trailOf .target target.output).ends

/-- Where the temporary file may be written. -/
def temporaryEnds (target : Target) (t : FileTree) : List Location :=
  (t.trailOf .place target.temporary).ends

end Target

namespace Job

/-- The locations that the path of the input depends on. -/
def route (job : Job) (t : FileTree) : List Location := (t.trailOf .target job.input).all

/-- Is the location a directory on the route, with more of the route below it? It cannot be
    replaced as long as the route stands. -/
def holds (job : Job) (t : FileTree) (loc : Location) : Bool :=
  t.at? loc == some .dir && (loc.isEmpty || (job.route t).contains loc)
    && (job.route t).any fun r => FileTree.isBelow loc r && (t.at? r).isSome

/-- The sites of the output and the sidecar of a target. -/
def made (job : Job) (t : FileTree) (target : Target) : List Location :=
  ((t.entryTrail target.output).ends ++ target.outputEnds t
    ++ (t.entryTrail target.sidecar).ends).filter fun site => !job.holds t site

/-- All sites of a target. -/
def sites (job : Job) (t : FileTree) (target : Target) : List Location :=
  job.made t target ++ (t.entryTrail target.temporary).ends ++ target.temporaryEnds t

/-- No site is on the route of the input. -/
def OffRoute (job : Job) (t : FileTree) : Prop :=
  ∀ target ∈ job.targets, Apart (job.sites t target) (job.route t)

/-- No site is on the way to an output, a sidecar or a temporary file. -/
def OffWays (job : Job) (t : FileTree) : Prop :=
  ∀ target ∈ job.targets, ∀ other ∈ job.targets, Apart (job.sites t target) (other.ways t)

/-- A temporary file is not written where its own output or sidecar is made. -/
def OffTemporaries (job : Job) (t : FileTree) : Prop :=
  ∀ target ∈ job.targets, Apart (job.made t target) (target.temporaryEnds t)

/-- Nothing is written where an earlier target has made something. -/
def OffLater (job : Job) (t : FileTree) : Prop :=
  job.targets.Pairwise fun earlier later =>
    Apart (job.made t earlier) (later.outputEnds t ++ later.temporaryEnds t)

instance (job : Job) (t : FileTree) : Decidable (job.OffRoute t) :=
  inferInstanceAs (Decidable (∀ target ∈ job.targets, _))

instance (job : Job) (t : FileTree) : Decidable (job.OffWays t) :=
  inferInstanceAs (Decidable (∀ target ∈ job.targets, ∀ other ∈ job.targets, _))

instance (job : Job) (t : FileTree) : Decidable (job.OffTemporaries t) :=
  inferInstanceAs (Decidable (∀ target ∈ job.targets, _))

instance (job : Job) (t : FileTree) : Decidable (job.OffLater t) :=
  inferInstanceAs (Decidable (job.targets.Pairwise _))

/-- The job spares its input. -/
structure Spares (job : Job) (t : FileTree) : Prop where
  route : job.OffRoute t
  ways : job.OffWays t
  temporaries : job.OffTemporaries t
  later : job.OffLater t

/-- Which parts of `Spares` hold, in their order. -/
def spared (job : Job) (t : FileTree) : List Bool :=
  [decide (job.OffRoute t), decide (job.OffWays t), decide (job.OffTemporaries t),
    decide (job.OffLater t)]

instance (job : Job) (t : FileTree) : Decidable (job.Spares t) :=
  decidable_of_iff (job.OffRoute t ∧ job.OffWays t ∧ job.OffTemporaries t ∧ job.OffLater t)
    ⟨fun h => ⟨h.1, h.2.1, h.2.2.1, h.2.2.2⟩,
      fun h => ⟨h.route, h.ways, h.temporaries, h.later⟩⟩

-- ── What every step preserves ────────────────────────────────────────────────

/-- The route of the input stands, the ways of the job are as planned, and outside the given
    sites every link is one that was there. -/
structure Keeps (job : Job) (plan : FileTree) (changed : List Location) (t : FileTree) : Prop where
  route : ∀ r ∈ job.route plan, ∀ node, plan.at? r = some node → t.at? r = some node
  ways : ∀ target ∈ job.targets, ∀ w ∈ target.ways plan, plan.GrowsAt t w
  links : ∀ loc, Apart changed [loc] → ∀ p, t.at? loc = some (.link p) → plan.planned loc = .link p

variable {job : Job} {plan t t' : FileTree} {changed changed' : List Location} {target : Target}

theorem Keeps.start (job : Job) (plan : FileTree) : job.Keeps plan [] plan :=
  ⟨fun _ _ _ h => h, fun _ _ _ _ => .inl rfl, fun _ _ _ h => FileTree.planned_of_at? h⟩

theorem Keeps.mono (h : job.Keeps plan changed t) (hsub : changed ⊆ changed') :
    job.Keeps plan changed' t :=
  ⟨h.route, h.ways, fun loc hapart => h.links loc fun site hsite => hapart site (hsub hsite)⟩

/-- Directories may come. -/
theorem Keeps.grow (h : job.Keeps plan changed t) (hgrows : t.Grows t') :
    job.Keeps plan changed t' := by
  refine ⟨fun r hr node hnode => ?_, fun target ht w hw => ?_, fun loc hapart p hp => ?_⟩
  · have hat := h.route r hr node hnode
    rcases hgrows r with hsame | ⟨hnone, -⟩
    · exact hsame.trans hat
    · rw [hat] at hnone
      exact nomatch hnone
  · exact (h.ways target ht w hw).trans (hgrows w)
  · rcases hgrows loc with hsame | ⟨-, hdir⟩
    · exact h.links loc hapart p (hsame ▸ hp)
    · rw [hdir] at hp
      exact nomatch hp

/-- A directory that the route holds cannot be replaced. -/
theorem Keeps.not_replaceable (h : job.Keeps plan changed t) {site : Location}
    (hholds : job.holds plan site = true) : ¬ t.Replaceable site := by
  intro hreplace
  obtain ⟨htop, hbelow⟩ := Bool.and_eq_true_iff.1 hholds
  obtain ⟨hdir, hon⟩ := Bool.and_eq_true_iff.1 htop
  have hplan : plan.at? site = some .dir := eq_of_beq hdir
  have hat : t.at? site = some .dir := by
    rcases Bool.or_eq_true_iff.1 hon with hnil | hmem
    · rw [List.isEmpty_iff.1 hnil]
      rfl
    · exact h.route site (List.contains_iff_mem.1 hmem) _ hplan
  obtain ⟨r, hr, hchild⟩ := List.any_eq_true.1 hbelow
  obtain ⟨hin, hsome⟩ := Bool.and_eq_true_iff.1 hchild
  obtain ⟨node, hnode⟩ := Option.isSome_iff_exists.1 hsome
  have hfull := FileTree.hasChildren_of_below hin (h.route r hr node hnode)
  rw [hreplace hat] at hfull
  exact nomatch hfull

/-- The sites at which a step may change the tree: those of the job, and directories that
    would have to give way for it. -/
def Site (job : Job) (plan t : FileTree) (site : Location) : Prop :=
  (∃ target ∈ job.targets, site ∈ job.sites plan target)
    ∨ (job.holds plan site = true ∧ t.Replaceable site)

/-- A step that changes the tree at sites only keeps the route and the ways; new links have to
    be within the sites that are given. -/
theorem Keeps.touch (h : job.Keeps plan changed t) (hspares : job.Spares plan)
    (htouches : t.Touches (job.Site plan t) t') (hsub : changed ⊆ changed')
    (hlinks : ∀ loc, Apart changed' [loc] → ∀ p, t'.at? loc = some (.link p) →
      t.at? loc = some (.link p)) : job.Keeps plan changed' t' := by
  -- what lies apart from all sites has not changed
  have hsame : ∀ loc, (∀ target ∈ job.targets, Apart (job.sites plan target) [loc]) →
      t'.at? loc = t.at? loc := by
    intro loc hapart
    by_contra hne
    obtain ⟨site, hsite, hin⟩ := htouches loc hne
    rcases hsite with ⟨target, htarget, hmem⟩ | ⟨hholds, hreplace⟩
    · rw [hapart target htarget site hmem loc List.mem_cons_self] at hin
      exact nomatch hin
    · exact h.not_replaceable hholds hreplace
  refine ⟨fun r hr node hnode => ?_, fun other hother w hw => ?_, fun loc hapart p hp => ?_⟩
  · rw [hsame r fun target htarget site hsite loc hloc => ?_]
    · exact h.route r hr node hnode
    · exact hspares.route target htarget site hsite loc (List.mem_singleton.1 hloc ▸ hr)
  · rw [FileTree.GrowsAt, hsame w fun target htarget site hsite loc hloc => ?_]
    · exact h.ways other hother w hw
    · exact hspares.ways target htarget other hother site hsite loc
        (List.mem_singleton.1 hloc ▸ hw)
  · exact h.links loc (fun site hsite => hapart site (hsub hsite)) p (hlinks loc hapart p hp)

-- ── Steps ────────────────────────────────────────────────────────────────────

/-- A site of an output or a sidecar is one of the job, or a directory that the route holds. -/
theorem mem_made_or_holds {site : Location}
    (h : site ∈ (plan.entryTrail target.output).ends ++ target.outputEnds plan
      ++ (plan.entryTrail target.sidecar).ends) :
    site ∈ job.made plan target ∨ job.holds plan site = true := by
  cases hholds : job.holds plan site with
  | true => exact .inr rfl
  | false => exact .inl (List.mem_filter.2 ⟨h, by rw [hholds]; rfl⟩)

theorem site_of_made (htarget : target ∈ job.targets) {site : Location}
    (hreplace : t.Replaceable site)
    (h : site ∈ job.made plan target ∨ job.holds plan site = true) : job.Site plan t site := by
  rcases h with hmade | hholds
  · exact .inl ⟨target, htarget, List.mem_append_left _ (List.mem_append_left _ hmade)⟩
  · exact .inr ⟨hholds, hreplace⟩

/-- Removing an output or a sidecar keeps the input. -/
theorem Keeps.removeFile (h : job.Keeps plan changed t) (hspares : job.Spares plan)
    (htarget : target ∈ job.targets) {p : Path} (hp : p = target.output ∨ p = target.sidecar)
    (hremove : t.removeFile p = .ok t') : job.Keeps plan changed t' := by
  obtain ⟨loc, hloc, hnodir, rfl⟩ := FileTree.removeFile_eq_ok hremove
  have hways : ∀ w ∈ (plan.entryTrail p).ways, plan.GrowsAt t w := by
    intro w hw
    refine h.ways target htarget w ?_
    rcases hp with rfl | rfl <;> simp [Target.ways, hw]
  have hend := FileTree.mem_ends_of_entryAt hways hloc
  have hmade : loc ∈ job.made plan target ∨ job.holds plan loc = true := by
    refine mem_made_or_holds ?_
    rcases hp with rfl | rfl <;> simp [hend]
  have hsite : job.Site plan t loc := site_of_made htarget (fun hdir => absurd hdir hnodir) hmade
  refine h.touch hspares ((FileTree.touches_remove t loc).mono ?_) (List.Subset.refl _) ?_
  · rintro site rfl
    exact hsite
  · intro other _ link hlink
    rw [FileTree.at?_remove] at hlink
    by_cases hgone : FileTree.isWithin loc other = true ∧ other ≠ []
    · rw [if_pos hgone] at hlink
      exact nomatch hlink
    · rwa [if_neg hgone] at hlink

theorem leads_discardOutput (hspares : job.Spares plan) (htarget : target ∈ job.targets) :
    Act.Leads (ρ := Request) (job.Keeps plan changed) (Act.discardOutput target.output)
      (job.Keeps plan changed) := by
  intro b hb
  obtain ⟨t, ht, hfiles⟩ := Act.files_discardOutput target.output b
  have hmid : job.Keeps plan changed t := by
    rcases ht with rfl | hremove
    · exact hb
    · exact hb.removeFile hspares htarget (.inl rfl) hremove
  rw [hfiles, Sidecar.discard]
  cases hremove : t.removeFile (Sidecar.pathOf target.output) with
  | ok t' => exact hmid.removeFile hspares htarget (.inr rfl) hremove
  | error f => exact hmid

theorem leads_createParent (path : Path) :
    Act.Leads (ρ := Request) (job.Keeps plan changed) (Act.createParent path)
      (job.Keeps plan changed) := by
  intro b hb
  rcases Act.files_createParent path b with hsame | ⟨parent, hfiles⟩
  · rw [hsame]
    exact hb
  · rw [hfiles]
    exact hb.grow (FileTree.createDirAll_grows _ parent)

/-- Where nothing has been made, no link is new. -/
theorem Keeps.no_new_link (h : job.Keeps plan changed t) {ends : List Location}
    (hapart : Apart changed ends) :
    ∀ e ∈ ends, ∀ p, t.at? e = some (.link p) → plan.planned e = .link p := by
  intro e he p hp
  refine h.links e (fun site hsite loc hloc => ?_) p hp
  exact hapart site hsite loc (List.mem_singleton.1 hloc ▸ he)

/-- The tool keeps the input. Links may be new where the target is made. -/
theorem leads_runTool {r : Remapper} (htool : r.tool.TouchesOnlyOutput)
    (hspares : job.Spares plan) (htarget : target ∈ job.targets)
    (hapart : Apart changed (target.outputEnds plan)) (direction : Direction) {request : Request}
    (houtput : request.output = target.output) :
    Act.Leads (job.Keeps plan changed) (r.runTool direction request)
      (job.Keeps plan (changed ++ job.made plan target)) := by
  intro b hb
  rw [Remapper.files_runTool]
  have htouches := htool request b.files
  rw [houtput] at htouches
  have hmade : ∀ site, (b.files.entryAt target.output = .ok site
      ∨ b.files.resolve .target target.output = .ok site) →
        site ∈ job.made plan target ∨ job.holds plan site = true := by
    rintro site (hentry | hresolve)
    · have hend : site ∈ (plan.entryTrail target.output).ends := FileTree.mem_ends_of_entryAt
        (fun w hw => hb.ways target htarget w (by simp [Target.ways, hw])) hentry
      exact mem_made_or_holds (by simp [hend])
    · have hend : site ∈ target.outputEnds plan := FileTree.mem_ends_of_resolve
        (fun w hw => hb.ways target htarget w (by simp [Target.ways, hw]))
        (fun _ => hb.no_new_link hapart) hresolve
      exact mem_made_or_holds (by simp [hend])
  refine hb.touch hspares (htouches.mono fun site hsite => ?_) (List.subset_append_left _ _) ?_
  · exact site_of_made htarget hsite.2 (hmade site hsite.1)
  · intro loc hfar p hp
    by_contra hne
    have hchanged : (r.tool.run request b.files).2.at? loc ≠ b.files.at? loc := by
      rw [hp]
      exact fun heq => hne heq.symm
    obtain ⟨site, ⟨hsite, hreplace⟩, hin⟩ := htouches loc hchanged
    rcases hmade site hsite with hmem | hholds
    · rw [hfar site (List.mem_append_right _ hmem) loc List.mem_cons_self] at hin
      exact nomatch hin
    · exact hb.not_replaceable hholds hreplace

/-- Writing the temporary file keeps the input. -/
theorem Keeps.writeTemporary (h : job.Keeps plan changed t) (hspares : job.Spares plan)
    (htarget : target ∈ job.targets) (hapart : Apart changed (target.temporaryEnds plan))
    {content : Content} (hwrite : t.write target.temporary content = .ok t') :
    job.Keeps plan changed t' := by
  obtain ⟨loc, hloc, -, rfl⟩ := FileTree.write_eq_ok hwrite
  have hend : loc ∈ target.temporaryEnds plan := FileTree.mem_ends_of_resolve
    (fun w hw => h.ways target htarget w (by simp [Target.ways, hw]))
    (fun _ => h.no_new_link hapart) hloc
  have hsite : job.Site plan t loc := .inl ⟨target, htarget, List.mem_append_right _ hend⟩
  refine h.touch hspares ((FileTree.touches_set t loc _).mono ?_) (List.Subset.refl _) ?_
  · rintro site rfl
    exact hsite
  · intro other _ p hp
    rw [FileTree.at?_set] at hp
    by_cases heq : other = loc ∧ other ≠ []
    · rw [if_pos heq] at hp
      exact nomatch hp
    · rwa [if_neg heq] at hp

/-- Putting the sidecar in place keeps the input. What is moved may be a link. -/
theorem Keeps.renameTemporary (h : job.Keeps plan changed t) (hspares : job.Spares plan)
    (htarget : target ∈ job.targets)
    (hrename : t.rename target.temporary target.sidecar = .ok t') :
    job.Keeps plan (changed ++ job.made plan target) t' := by
  obtain ⟨src, dst, hsrc, hdst, hmove⟩ := FileTree.rename_eq_ok hrename
  rcases hmove with rfl | ⟨hreplace, rfl⟩
  · exact h.mono (List.subset_append_left _ _)
  have hsource : src ∈ (plan.entryTrail target.temporary).ends := FileTree.mem_ends_of_entryAt
    (fun w hw => h.ways target htarget w (by simp [Target.ways, hw])) hsrc
  have hdest : dst ∈ (plan.entryTrail target.sidecar).ends := FileTree.mem_ends_of_entryAt
    (fun w hw => h.ways target htarget w (by simp [Target.ways, hw])) hdst
  have hmade : dst ∈ job.made plan target := by
    rcases mem_made_or_holds (List.mem_append_right _ hdest) with hmem | hholds
    · exact hmem
    · exact absurd hreplace (h.not_replaceable hholds)
  refine h.touch hspares ((FileTree.touches_move t src dst).mono ?_)
    (List.subset_append_left _ _) ?_
  · rintro site (rfl | rfl)
    · exact .inl ⟨target, htarget, List.mem_append_left _ (List.mem_append_right _ hsource)⟩
    · exact site_of_made htarget hreplace (.inl hmade)
  · intro other hfar p hp
    rw [FileTree.at?_move_of_outside t
      (hfar dst (List.mem_append_right _ hmade) other List.mem_cons_self),
      FileTree.at?_remove] at hp
    by_cases hgone : FileTree.isWithin src other = true ∧ other ≠ []
    · rw [if_pos hgone] at hp
      exact nomatch hp
    · rwa [if_neg hgone] at hp

theorem leads_saveSidecar (hspares : job.Spares plan) (htarget : target ∈ job.targets)
    (hapart : Apart changed (target.temporaryEnds plan)) (s : Sidecar) :
    Act.Leads (job.Keeps plan changed) (Remapper.saveSidecar target.output s)
      (job.Keeps plan (changed ++ job.made plan target)) := by
  intro b hb
  rw [Remapper.files_saveSidecar]
  rcases Sidecar.save_cases b.files target.output { s with writtenAt := b.now }
    with hsame | ⟨mid, hwrite, hsame | hrename⟩
  · rw [hsame]
    exact hb.mono (List.subset_append_left _ _)
  · rw [hsame]
    exact (hb.writeTemporary hspares htarget hapart hwrite).mono (List.subset_append_left _ _)
  · exact (hb.writeTemporary hspares htarget hapart hwrite).renameTemporary hspares htarget hrename

-- ── Targets ──────────────────────────────────────────────────────────────────

theorem idle_isCurrent (output : Path) (expected : Sidecar) :
    Act.Idle (Remapper.isCurrent output expected) := by
  refine Act.idle_get.bind fun b => ?_
  dsimp only
  by_cases hfile : b.files.isFile output = true
  · rw [if_pos hfile]
    rcases Sidecar.load b.files output with ⟨found, log⟩
    refine (Act.idle_reportAll log).bind fun _ => ?_
    cases found with
    | none => exact Act.idle_pure _
    | some s => exact Act.idle_pure _
  · rw [if_neg hfile]
    exact Act.idle_pure _

/-- Once it is known whether the output is taken again: nothing, or the whole of a target. -/
theorem leads_makeUnless {r : Remapper} (htool : r.tool.TouchesOnlyOutput)
    (hspares : job.Spares plan) (htarget : target ∈ job.targets)
    (hapart : Apart changed (target.outputEnds plan ++ target.temporaryEnds plan))
    (direction : Direction) {request : Request} (houtput : request.output = target.output)
    (reuse : Bool) (message : String) (expected : Sidecar) (old new : Outcome) :
    Act.Leads (job.Keeps plan changed)
      (if reuse = true then pure old
      else do
        Act.report .info message
        Act.discardOutput target.output
        Act.createParent target.output
        r.runTool direction request
        Remapper.saveSidecar target.output expected
        return new)
      (job.Keeps plan (changed ++ job.made plan target)) := by
  have hmono : ∀ t, job.Keeps plan changed t → job.Keeps plan (changed ++ job.made plan target) t :=
    fun _ h => h.mono (List.subset_append_left _ _)
  have hout : Apart changed (target.outputEnds plan) :=
    fun site hsite loc hloc => hapart site hsite loc (List.mem_append_left _ hloc)
  -- the temporary file is apart from what earlier targets made and from what this one made
  have htemp : Apart (changed ++ job.made plan target) (target.temporaryEnds plan) := by
    intro site hsite loc hloc
    rcases List.mem_append.1 hsite with hsite | hsite
    · exact hapart site hsite loc (List.mem_append_right _ hloc)
    · exact hspares.temporaries target htarget site hsite loc hloc
  by_cases hreuse : reuse = true
  · rw [if_pos hreuse]
    exact (Act.idle_pure old).leads hmono
  rw [if_neg hreuse]
  refine (Act.idle_report .info message).then (fun _ => ?_) hmono
  refine (leads_discardOutput hspares htarget).bind (fun _ => ?_) hmono
  refine (leads_createParent target.output).bind (fun _ => ?_) hmono
  refine (leads_runTool htool hspares htarget hout direction houtput).bind (fun _ => ?_)
    fun _ h => h
  have hsave := leads_saveSidecar hspares htarget htemp expected
  have htwice : changed ++ job.made plan target ++ job.made plan target
      ⊆ changed ++ job.made plan target := by
    intro site hsite
    rcases List.mem_append.1 hsite with hsite | hsite
    · exact hsite
    · exact List.mem_append_right _ hsite
  refine (hsave.mono (fun _ h => h) fun _ h => h.mono htwice).bind (fun _ => ?_) fun _ h => h
  exact (Act.idle_pure new).leads fun _ h => h

/-- Making one target keeps the input. -/
theorem leads_makeTarget {r : Remapper} (htool : r.tool.TouchesOnlyOutput)
    (hspares : job.Spares plan) (htarget : target ∈ job.targets)
    (hapart : Apart changed (target.outputEnds plan ++ target.temporaryEnds plan))
    (catalog : Naming.Catalog) (classpath : List Path) (inputDigest : String) (force : Bool) :
    Act.Leads (job.Keeps plan changed)
      (r.makeTarget catalog job classpath inputDigest force target)
      (job.Keeps plan (changed ++ job.made plan target)) := by
  have hmono : ∀ t, job.Keeps plan changed t → job.Keeps plan (changed ++ job.made plan target) t :=
    fun _ h => h.mono (List.subset_append_left _ _)
  rw [Remapper.makeTarget]
  refine (Act.idle_resolveTable catalog _).then (fun table => ?_) hmono
  dsimp only
  by_cases hforce : force = true
  · rw [if_pos hforce]
    refine (Act.idle_pure false).then (fun reuse => ?_) hmono
    exact leads_makeUnless htool hspares htarget hapart _ rfl reuse _ _ _ _
  · rw [if_neg hforce]
    refine (idle_isCurrent target.output _).then (fun reuse => ?_) hmono
    exact leads_makeUnless htool hspares htarget hapart _ rfl reuse _ _ _ _

/-- Making the targets that are left, after those before them, keeps the input. -/
theorem leads_makeTargets {r : Remapper} (htool : r.tool.TouchesOnlyOutput)
    (hspares : job.Spares plan) (catalog : Naming.Catalog) (classpath : List Path)
    (inputDigest : String) (force : Bool) {before later : List Target}
    (htargets : job.targets = before ++ later) :
    Act.Leads (job.Keeps plan (before.flatMap (job.made plan)))
      (r.makeTargets catalog job classpath inputDigest force later)
      (job.Keeps plan (job.targets.flatMap (job.made plan))) := by
  induction later generalizing before with
  | nil =>
      rw [List.append_nil] at htargets
      rw [← htargets]
      exact (Act.idle_pure _).leads fun _ h => h
  | cons target later ih =>
      have htarget : target ∈ job.targets := by
        rw [htargets]
        exact List.mem_append_right _ List.mem_cons_self
      have hnext : job.targets = (before ++ [target]) ++ later := by
        rw [htargets, List.append_assoc]
        rfl
      have hapart : Apart (before.flatMap (job.made plan))
          (target.outputEnds plan ++ target.temporaryEnds plan) := by
        intro site hsite
        obtain ⟨earlier, hearlier, hmade⟩ := List.mem_flatMap.1 hsite
        have horder := hspares.later
        rw [OffLater, htargets] at horder
        exact (List.pairwise_append.1 horder).2.2 earlier hearlier target List.mem_cons_self
          site hmade
      have hdone : (before ++ [target]).flatMap (job.made plan)
          = before.flatMap (job.made plan) ++ job.made plan target := by
        rw [List.flatMap_append, List.flatMap_singleton]
      have hrest := ih hnext
      rw [hdone] at hrest
      have hend : ∀ t, job.Keeps plan (before.flatMap (job.made plan) ++ job.made plan target) t →
          job.Keeps plan (job.targets.flatMap (job.made plan)) t := by
        intro t h
        refine h.mono ?_
        rw [hnext, List.flatMap_append, hdone]
        exact List.subset_append_left _ _
      refine (leads_makeTarget htool hspares htarget hapart catalog classpath inputDigest
        force).bind (fun outcome => ?_) hend
      refine hrest.bind (fun outcomes => ?_) fun _ h => h
      exact (Act.idle_pure _).leads fun _ h => h

/-- Removing the outputs of targets keeps the input. -/
theorem leads_discardAll (hspares : job.Spares plan) {targets : List Target}
    (hsub : targets ⊆ job.targets) :
    Act.Leads (job.Keeps plan changed) (Remapper.discardAll targets) (job.Keeps plan changed) := by
  induction targets with
  | nil => exact (Act.idle_pure _).leads fun _ h => h
  | cons target later ih =>
      refine (leads_discardOutput hspares (hsub List.mem_cons_self)).bind (fun _ => ?_) fun _ h => h
      exact ih fun _ h => hsub (List.mem_cons_of_mem _ h)

-- ── Jobs ─────────────────────────────────────────────────────────────────────

theorem leads_produce {r : Remapper} (htool : r.tool.TouchesOnlyOutput)
    (hspares : job.Spares plan) (catalog : Naming.Catalog) (force : Bool) :
    Act.Leads (job.Keeps plan []) (r.produce catalog job force)
      (job.Keeps plan (job.targets.flatMap (job.made plan))) := by
  have hmono : ∀ t, job.Keeps plan [] t → job.Keeps plan (job.targets.flatMap (job.made plan)) t :=
    fun _ h => h.mono (List.nil_subset _)
  rw [Remapper.produce]
  refine (Act.idle_ask _).then (fun found => ?_) hmono
  by_cases hfound : (!found) = true
  · rw [if_pos hfound]
    exact (Act.idle_throw _).leads hmono
  rw [if_neg hfound]
  refine (Act.idle_resolveClasspath _ _ _).then (fun classpath => ?_) hmono
  refine Act.idle_get.then (fun b => ?_) hmono
  cases b.files.readBytes job.input with
  | error fault => exact (Act.idle_throw _).leads hmono
  | ok bytes =>
      exact leads_makeTargets htool hspares catalog classpath _ force
        (List.nil_append job.targets).symm

/-- Running a job that spares its input leaves a tree in which the route stands. -/
theorem keeps_runJob {r : Remapper} (htool : r.tool.TouchesOnlyOutput)
    (catalog : Naming.Catalog) (force : Bool) (b : Bench Request) (hspares : job.Spares b.files) :
    ∃ changed, job.Keeps b.files changed ((r.runJob catalog job force).run.run b).2.files := by
  refine ⟨job.targets.flatMap (job.made b.files), ?_⟩
  rw [Remapper.runJob]
  rw [Act.run_get_bind]
  dsimp only
  cases job.targets.find? fun target => b.files.samePlace job.input target.output with
  | some target => exact (Keeps.start job b.files).mono (List.nil_subset _)
  | none =>
      refine (leads_produce htool hspares catalog force).orElseDo (fun e => ?_) (fun _ h => h) b
        (Keeps.start job b.files)
      refine (Act.idle_report _ _).then (fun _ => ?_) fun _ h => h
      refine (leads_discardAll hspares (List.Subset.refl _)).bind (fun _ => ?_) fun _ h => h
      refine Act.idle_invalidateCache.then (fun _ => ?_) fun _ h => h
      exact (Act.idle_pure _).leads fun _ h => h

end Job

-- ── Tools and benches ────────────────────────────────────────────────────────

/-- A tool that refuses every request and touches nothing. -/
def Tool.refusing : Tool where
  name := "refuser"
  run _ t := (.error ["refused"], t)

theorem Tool.refusing_touchesOnlyOutput : refusing.TouchesOnlyOutput :=
  fun _ t => FileTree.Touches.refl _ t

/-- A tool that puts a node where its output is named, in place of what can be replaced. -/
def Tool.putting (node : Path → Node) : Tool where
  name := "putter"
  run request t :=
    match t.entryAt request.output with
    | .ok loc =>
      if t.at? loc = some .dir ∧ t.hasChildren loc = true then (.error ["occupied"], t)
      else (.ok (), t.set loc (node request.output))
    | .error fault => (.error [fault.message], t)

theorem Tool.putting_touchesOnlyOutput (node : Path → Node) :
    (putting node).TouchesOnlyOutput := by
  intro request t
  simp only [putting]
  cases hentry : t.entryAt request.output with
  | error fault => exact FileTree.Touches.refl _ t
  | ok loc =>
      by_cases hfull : t.at? loc = some .dir ∧ t.hasChildren loc = true
      · simp only [if_pos hfull]
        exact FileTree.Touches.refl _ t
      · simp only [if_neg hfull]
        refine (FileTree.touches_set t loc _).mono ?_
        rintro site rfl
        exact ⟨.inl rfl, fun hdir => Bool.eq_false_iff.2 fun hc => hfull ⟨hdir, hc⟩⟩

/-- A bench with the given nodes. -/
def Bench.ofNodes (nodes : List (Location × Node)) : Bench Request :=
  { files := { nodes := .ofList nodes } }

/-- The catalog of a document without classes. -/
def twoLabels : Naming.Catalog :=
  { format := .tinyV1
    namespaces := ⟨["a", "b"]⟩
    classes := []
    fingerprint := Digest.fingerprintOf "v1\ta\tb\n" }

/-- A job from `a` to `b`, with one target for each output. -/
def Job.toOutputs (input : String) (outputs : List String) : Job :=
  { input := ⟨input⟩
    source := "a"
    targets := outputs.map fun output => { label := "b", output := ⟨output⟩ }
    classpath := [] }

-- ── The input ────────────────────────────────────────────────────────────────

/-- A file that a link leads to. -/
def linkedFile : Bench Request :=
  .ofNodes [(["lib"], .dir), (["lib", "in"], .file (.raw [1])), (["l"], .link ⟨"lib"⟩)]

/-- With this tool, a run that starts with the given nodes and meets the given parts of
    `Spares` loses its input. -/
def Tool.LosesInput (tool : Tool) (spared : List Bool) (input : String) (outputs : List String)
    (nodes : List (Location × Node)) : Prop :=
  tool.TouchesOnlyOutput
    ∧ (Bench.ofNodes nodes).files.isFile ⟨input⟩ = true
    ∧ (Job.toOutputs input outputs).spared (Bench.ofNodes nodes).files = spared
    ∧ ((({ tool, settings := {} } : Remapper).run twoLabels (.toOutputs input outputs)).run.run
        (.ofNodes nodes)).2.files.readContent ⟨input⟩
      ≠ (Bench.ofNodes nodes).files.readContent ⟨input⟩

end Nomenclator.Remap
