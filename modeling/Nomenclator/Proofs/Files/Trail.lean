import Nomenclator.Proofs.Files.Walk

/-! # Trails — what a path depends on

    Where a path leads is decided by the locations that its walk looks up.  A
    trail lists them ahead of time, for a tree in which directories may still come:
    a missing name is taken for a directory.  It tells the **ways**, looked up with
    more of the path to go, from the **ends**, at which the walk may stop.

    * `walkLinks_congr` — a walk that arrives at something does so in every tree
      that has what the first has along the trail; a walk to an entry depends on the
      ways only;
    * `mem_ends_of_walkLinks` — in a later tree a walk can only end where the trail
      does, provided that the ways are as planned and no new link is at an end. -/

namespace Nomenclator.Files.FileTree

/-- What is at a location, where a missing name is taken for a directory to come. -/
def planned (t : FileTree) (loc : Location) : Node := (t.at? loc).getD .dir

theorem planned_of_at? {t : FileTree} {loc : Location} {node : Node}
    (h : t.at? loc = some node) : t.planned loc = node := by
  rw [planned, h]
  rfl

/-- The locations that a walk looks up with more to go, and those at which it may end. -/
structure Trail where
  ways : List Location := []
  ends : List Location := []
  deriving DecidableEq, Repr

/-- All locations of a trail. -/
def Trail.all (trail : Trail) : List Location := trail.ways ++ trail.ends

/-- The trail of a walk up to a link, with what is left to walk from there. -/
structure Leg extends Trail where
  next : Option (Location × List Step) := none
  deriving DecidableEq, Repr

/-- The leg after a look at a location. -/
def Leg.see (leg : Leg) (last : Bool) (loc : Location) : Leg :=
  if last then { leg with ends := loc :: leg.ends } else { leg with ways := loc :: leg.ways }

/-- The planned walk from a directory. -/
def leg (t : FileTree) (ending : Ending) : Location → List Step → Leg
  | base, [] => { ends := [base] }
  | base, .here :: later => t.leg ending base later
  | base, .slash :: later => t.leg ending base later
  | [], .up :: later => if later.any Step.isDown then {} else { ends := [[]] }
  | base, .up :: later => t.leg ending base.dropLast later
  | base, .down name :: later =>
    if later.isEmpty && ending == .entry then { ends := [base ++ [name]] }
    else if later == [.slash] && ending == .place then {}
    else if isTooLong name then {}
    else match t.planned (base ++ [name]) with
      | .dir => (t.leg ending (base ++ [name]) later).see later.isEmpty (base ++ [name])
      | .file _ => Leg.see {} later.isEmpty (base ++ [name])
      | .link target =>
        Leg.see { next := some (if target.isAbsolute then [] else base, target.steps ++ later) }
          later.isEmpty (base ++ [name])

/-- The planned walk through links, at most as many as the argument says. -/
def trail (t : FileTree) (ending : Ending) : (links : Nat) → Location → List Step → Trail
  | 0, base, steps => (t.leg ending base steps).toTrail
  | links + 1, base, steps =>
    let leg := t.leg ending base steps
    match leg.next with
    | none => leg.toTrail
    | some (base, steps) =>
      let rest := t.trail ending links base steps
      { ways := leg.ways ++ rest.ways, ends := leg.ends ++ rest.ends }

/-- The trail of a path. -/
def trailOf (t : FileTree) (ending : Ending) (p : Path) : Trail :=
  t.trail ending linkLimit [] p.steps

/-- The trail to the entry that a path names. -/
def entryTrail (t : FileTree) (p : Path) : Trail := t.trailOf .entry p.trimmed

-- ── One leg ──────────────────────────────────────────────────────────────────

theorem Leg.mem_ways_see {leg : Leg} {last : Bool} {loc w : Location} :
    w ∈ (leg.see last loc).ways ↔ (last = false ∧ w = loc) ∨ w ∈ leg.ways := by
  cases last <;> simp [see]

theorem Leg.mem_ends_see {leg : Leg} {last : Bool} {loc e : Location} :
    e ∈ (leg.see last loc).ends ↔ (last = true ∧ e = loc) ∨ e ∈ leg.ends := by
  cases last <;> simp [see]

theorem Leg.mem_all_see {leg : Leg} {last : Bool} {loc other : Location} :
    other ∈ (leg.see last loc).all ↔ other = loc ∨ other ∈ leg.all := by
  cases last <;> simp [see, Trail.all, or_left_comm]

theorem Leg.next_see (leg : Leg) (last : Bool) (loc : Location) :
    (leg.see last loc).next = leg.next := by
  cases last <;> rfl

/-- What is at the location does not lead elsewhere than planned: there is nothing, a file, or
    what is planned. -/
def PlannedAt (plan t : FileTree) (loc : Location) : Prop :=
  t.at? loc = none ∨ (∃ content, t.at? loc = some (.file content))
    ∨ t.at? loc = some (plan.planned loc)

theorem GrowsAt.plannedAt {plan t : FileTree} {loc : Location} (h : GrowsAt plan t loc) :
    PlannedAt plan t loc := by
  rcases h with hsame | ⟨hnone, hdir⟩
  · rw [PlannedAt, planned, ← hsame]
    cases t.at? loc with
    | none => exact .inl rfl
    | some node => exact .inr (.inr rfl)
  · rw [PlannedAt, planned, hnone]
    exact .inr (.inr hdir)

/-- What is there, and is no file, was planned. -/
theorem PlannedAt.planned_eq {plan t : FileTree} {loc : Location} {node : Node}
    (h : PlannedAt plan t loc) (hat : t.at? loc = some node)
    (hfile : ∀ content, node ≠ .file content) : plan.planned loc = node := by
  rcases h with hnone | ⟨content, hcontent⟩ | hplanned
  · exact nomatch hnone.symm.trans hat
  · exact absurd (Option.some.inj (hat.symm.trans hcontent)) (hfile content)
  · exact Option.some.inj (hplanned.symm.trans hat)

theorem PlannedAt.link {plan t : FileTree} {loc : Location} (h : PlannedAt plan t loc)
    {target : Path} (hlink : t.at? loc = some (.link target)) :
    plan.planned loc = .link target :=
  h.planned_eq hlink fun _ => Node.noConfusion

/-- A walk does what a leg says: it ends where the leg may, or follows the link there, or
    fails. -/
def Walk.Follows (leg : Leg) : Walk → Prop
  | .arrive loc => loc ∈ leg.ends
  | .fault _ => True
  | .follow base steps => leg.next = some (base, steps)

theorem Walk.Follows.see {leg : Leg} {walk : Walk} (h : walk.Follows leg) (last : Bool)
    (loc : Location) : walk.Follows (leg.see last loc) := by
  cases walk with
  | arrive end' => exact Leg.mem_ends_see.2 (.inr h)
  | fault f => exact trivial
  | follow base steps => exact (Leg.next_see leg last loc).trans h

theorem leg_up (plan : FileTree) (ending : Ending) {base : Location} (hbase : base ≠ [])
    (later : List Step) : plan.leg ending base (.up :: later) = plan.leg ending base.dropLast later := by
  rw [leg]
  exact hbase

section Down

variable {ending : Ending} {name : Name} {later : List Step} (h : LooksUp ending name later)
  (plan : FileTree) (base : Location)
include h

/-- A name that is looked up is seen, whatever is planned there. -/
theorem LooksUp.leg_sees : ∃ leg : Leg,
    plan.leg ending base (.down name :: later) = leg.see later.isEmpty (base ++ [name]) := by
  rw [leg, if_neg h.notEntry, if_neg h.notSlash, if_neg h.short]
  cases plan.planned (base ++ [name]) with
  | dir => exact ⟨_, rfl⟩
  | file _ => exact ⟨_, rfl⟩
  | link _ => exact ⟨_, rfl⟩

theorem LooksUp.mem_leg :
    base ++ [name] ∈ (plan.leg ending base (.down name :: later)).toTrail.all := by
  obtain ⟨leg, hleg⟩ := h.leg_sees plan base
  rw [hleg]
  exact Leg.mem_all_see.2 (.inl rfl)

/-- A name with more to walk after it is among the ways. -/
theorem LooksUp.mem_ways_leg (hlater : later ≠ []) :
    base ++ [name] ∈ (plan.leg ending base (.down name :: later)).ways := by
  obtain ⟨leg, hleg⟩ := h.leg_sees plan base
  rw [hleg]
  exact Leg.mem_ways_see.2 (.inl ⟨List.isEmpty_eq_false_iff.2 hlater, rfl⟩)

/-- The last name is among the ends. -/
theorem LooksUp.mem_ends_leg (hlater : later = []) :
    base ++ [name] ∈ (plan.leg ending base (.down name :: later)).ends := by
  obtain ⟨leg, hleg⟩ := h.leg_sees plan base
  rw [hleg]
  exact Leg.mem_ends_see.2 (.inl ⟨List.isEmpty_iff.2 hlater, rfl⟩)

variable {plan base}

theorem LooksUp.leg_dir (hplan : plan.planned (base ++ [name]) = .dir) :
    plan.leg ending base (.down name :: later)
      = (plan.leg ending (base ++ [name]) later).see later.isEmpty (base ++ [name]) := by
  rw [leg, if_neg h.notEntry, if_neg h.notSlash, if_neg h.short, hplan]

theorem LooksUp.next_leg {target : Path} (hplan : plan.planned (base ++ [name]) = .link target) :
    (plan.leg ending base (.down name :: later)).next
      = some (if target.isAbsolute then [] else base, target.steps ++ later) := by
  rw [leg, if_neg h.notEntry, if_neg h.notSlash, if_neg h.short, hplan]
  exact Leg.next_see _ _ _

end Down

/-- Along a leg that is as planned, and with no new link at its ends, a walk does what the leg
    says. -/
theorem walk_follows_leg {plan t : FileTree} {ending : Ending} {base : Location}
    {steps : List Step} (hways : ∀ w ∈ (plan.leg ending base steps).ways, PlannedAt plan t w)
    (hends : ending ≠ .entry → ∀ e ∈ (plan.leg ending base steps).ends, ∀ target,
      t.at? e = some (.link target) → plan.planned e = .link target) :
    (t.walk ending base steps).Follows (plan.leg ending base steps) := by
  rcases t.goes_or_fault ending base steps with ⟨f, hfault⟩ | hgoes
  · rw [hfault]
    exact trivial
  generalize t.walk ending base steps = walk at hgoes ⊢
  induction hgoes with
  | done => exact List.mem_singleton.2 rfl
  | here _ ih | slash _ ih => exact ih hways hends
  | root hdown =>
      rw [leg, if_neg hdown]
      exact List.mem_singleton.2 rfl
  | up hbase _ ih =>
      rw [leg_up plan ending hbase] at hways hends ⊢
      exact ih hways hends
  | entry hending =>
      rw [hending]
      exact List.mem_singleton.2 rfl
  | stop hlook _ => exact hlook.mem_ends_leg plan _ rfl
  | @dir base name later walk hlook hdir rest ih =>
      by_cases hlater : later = []
      · subst hlater
        rw [← rest.walk]
        exact hlook.mem_ends_leg plan base rfl
      have hplan := (hways _ (hlook.mem_ways_leg plan base hlater)).planned_eq hdir
        fun _ => Node.noConfusion
      rw [hlook.leg_dir hplan] at hways hends ⊢
      refine Walk.Follows.see (ih ?_ ?_) _ _
      · exact fun w hw => hways w (Leg.mem_ways_see.2 (.inr hw))
      · exact fun hne e he => hends hne e (Leg.mem_ends_see.2 (.inr he))
  | @link base name later target hlook hlink =>
      refine hlook.next_leg ?_
      by_cases hlater : later = []
      · -- at the last name only a new link could take the walk elsewhere
        have hne : ending ≠ .entry := fun heq => hlook.notEntry (by rw [hlater, heq]; rfl)
        exact hends hne _ (hlook.mem_ends_leg plan base hlater) target hlink
      · exact (hways _ (hlook.mem_ways_leg plan base hlater)).link hlink

/-- In the tree of the plan itself a walk does what the leg says. -/
theorem walk_follows_own_leg (t : FileTree) (ending : Ending) (base : Location)
    (steps : List Step) : (t.walk ending base steps).Follows (t.leg ending base steps) :=
  walk_follows_leg (fun w _ => (Grows.refl t w).plannedAt) (fun _ _ _ _ he => planned_of_at? he)

/-- A walk that does not fail goes the same way in a tree that has what the first has along the
    leg, if there is something where it arrives. -/
theorem Goes.congr {plan t : FileTree} {ending : Ending} {base : Location} {steps : List Step}
    {walk : Walk} (h : plan.Goes ending base steps walk)
    (hkept : ∀ loc ∈ (plan.leg ending base steps).toTrail.all, ∀ node,
      plan.at? loc = some node → t.at? loc = some node)
    (hthere : ∀ loc, walk = .arrive loc → plan.at? loc ≠ none) : t.Goes ending base steps walk := by
  induction h with
  | done => exact .done
  | here _ ih => exact .here (ih hkept hthere)
  | slash _ ih => exact .slash (ih hkept hthere)
  | root hdown => exact .root hdown
  | up hbase _ ih =>
      rw [leg_up plan ending hbase] at hkept
      exact .up hbase (ih hkept hthere)
  | entry hending => exact .entry hending
  | stop hlook hends =>
      obtain ⟨content, hfile⟩ := hends.resolve_left (hthere _ rfl)
      exact .stop hlook (.inr ⟨content, hkept _ (hlook.mem_leg plan _) _ hfile⟩)
  | dir hlook hdir _ ih =>
      have hdir' := hkept _ (hlook.mem_leg plan _) _ hdir
      rw [hlook.leg_dir (planned_of_at? hdir)] at hkept
      exact .dir hlook hdir' (ih (fun loc hloc => hkept loc (Leg.mem_all_see.2 (.inr hloc))) hthere)
  | link hlook hlink => exact .link hlook (hkept _ (hlook.mem_leg plan _) _ hlink)

/-- A walk to an entry looks up the ways only. -/
theorem Goes.congr_entry {plan t : FileTree} {base : Location} {steps : List Step} {walk : Walk}
    (h : plan.Goes .entry base steps walk)
    (hkept : ∀ loc ∈ (plan.leg .entry base steps).ways, ∀ node,
      plan.at? loc = some node → t.at? loc = some node) : t.Goes .entry base steps walk := by
  have hmore : ∀ {name : Name} {later : List Step}, LooksUp .entry name later → later ≠ [] := by
    rintro name later hlook rfl
    exact hlook.notEntry rfl
  induction h with
  | done => exact .done
  | here _ ih => exact .here (ih hkept)
  | slash _ ih => exact .slash (ih hkept)
  | root hdown => exact .root hdown
  | up hbase _ ih =>
      rw [leg_up plan .entry hbase] at hkept
      exact .up hbase (ih hkept)
  | entry hending => exact .entry hending
  | stop hlook _ => exact absurd rfl (hmore hlook)
  | dir hlook hdir _ ih =>
      have hdir' := hkept _ (hlook.mem_ways_leg plan _ (hmore hlook)) _ hdir
      rw [hlook.leg_dir (planned_of_at? hdir)] at hkept
      exact .dir hlook hdir' (ih fun loc hloc => hkept loc (Leg.mem_ways_see.2 (.inr hloc)))
  | link hlook hlink =>
      exact .link hlook (hkept _ (hlook.mem_ways_leg plan _ (hmore hlook)) _ hlink)

-- ── Whole paths ──────────────────────────────────────────────────────────────

/-- The first trail is part of the second. -/
structure Trail.PartOf (a b : Trail) : Prop where
  ways : a.ways ⊆ b.ways
  ends : a.ends ⊆ b.ends

theorem Trail.PartOf.all {a b : Trail} (h : a.PartOf b) : a.all ⊆ b.all := by
  intro loc hloc
  rcases List.mem_append.1 hloc with hway | hend
  · exact List.mem_append_left _ (h.ways hway)
  · exact List.mem_append_right _ (h.ends hend)

theorem leg_partOf_trail (t : FileTree) (ending : Ending) (links : Nat) (base : Location)
    (steps : List Step) :
    (t.leg ending base steps).toTrail.PartOf (t.trail ending links base steps) := by
  cases links with
  | zero => exact ⟨fun _ h => h, fun _ h => h⟩
  | succ links =>
      rw [trail]
      cases (t.leg ending base steps).next with
      | none => exact ⟨fun _ h => h, fun _ h => h⟩
      | some next => exact ⟨List.subset_append_left _ _, List.subset_append_left _ _⟩

theorem trail_partOf_of_next {t : FileTree} {ending : Ending} {base base' : Location}
    {steps steps' : List Step} (h : (t.leg ending base steps).next = some (base', steps'))
    (links : Nat) :
    (t.trail ending links base' steps').PartOf (t.trail ending (links + 1) base steps) := by
  rw [trail, h]
  exact ⟨List.subset_append_right _ _, List.subset_append_right _ _⟩

/-- **A walk ends on its trail.** While the ways are as planned and no new link is at an end, a
    walk can only arrive where the trail ends. -/
theorem mem_ends_of_walkLinks {plan t : FileTree} {ending : Ending} {links : Nat}
    {base loc : Location} {steps : List Step}
    (hways : ∀ w ∈ (plan.trail ending links base steps).ways, PlannedAt plan t w)
    (hends : ending ≠ .entry → ∀ e ∈ (plan.trail ending links base steps).ends, ∀ target,
      t.at? e = some (.link target) → plan.planned e = .link target)
    (h : t.walkLinks ending links base steps = .ok loc) :
    loc ∈ (plan.trail ending links base steps).ends := by
  rw [leads_iff] at h
  induction h with
  | @arrive links base steps loc hgoes =>
      have hpart := leg_partOf_trail plan ending links base steps
      have hleg := walk_follows_leg (fun w hw => hways w (hpart.ways hw))
        (fun hne e he => hends hne e (hpart.ends he))
      rw [hgoes.walk] at hleg
      exact hpart.ends hleg
  | @follow links base base' steps steps' loc hgoes _ ih =>
      have hpart := leg_partOf_trail plan ending (links + 1) base steps
      have hleg := walk_follows_leg (fun w hw => hways w (hpart.ways hw))
        (fun hne e he => hends hne e (hpart.ends he))
      rw [hgoes.walk] at hleg
      have hrest := trail_partOf_of_next hleg links
      exact hrest.ends (ih (fun w hw => hways w (hrest.ways hw))
        (fun hne e he => hends hne e (hrest.ends he)))

/-- What is left to walk after a link is part of the trail. -/
theorem Goes.trail_partOf {t : FileTree} {ending : Ending} {base base' : Location}
    {steps steps' : List Step} (h : t.Goes ending base steps (.follow base' steps'))
    (links : Nat) :
    (t.trail ending links base' steps').PartOf (t.trail ending (links + 1) base steps) := by
  have hleg := walk_follows_own_leg t ending base steps
  rw [h.walk] at hleg
  exact trail_partOf_of_next hleg links

/-- **A walk depends on its trail only.** A walk that arrives at something arrives there in
    every tree that has what the first has along the trail. -/
theorem walkLinks_congr {plan t : FileTree} {ending : Ending} {links : Nat}
    {base loc : Location} {steps : List Step}
    (hkept : ∀ l ∈ (plan.trail ending links base steps).all, ∀ node,
      plan.at? l = some node → t.at? l = some node)
    (h : plan.walkLinks ending links base steps = .ok loc) (hloc : plan.at? loc ≠ none) :
    t.walkLinks ending links base steps = .ok loc := by
  rw [leads_iff] at h ⊢
  induction h with
  | @arrive links base steps loc hgoes =>
      have hpart := leg_partOf_trail plan ending links base steps
      refine .arrive (hgoes.congr (fun l hl => hkept l (hpart.all hl)) fun other hother => ?_)
      rwa [← Walk.arrive.inj hother]
  | @follow links base base' steps steps' loc hgoes _ ih =>
      have hpart := leg_partOf_trail plan ending (links + 1) base steps
      have hrest := hgoes.trail_partOf links
      exact .follow (hgoes.congr (fun l hl => hkept l (hpart.all hl)) fun _ => Walk.noConfusion)
        (ih (fun l hl => hkept l (hrest.all hl)) hloc)

theorem walkLinks_congr_entry {plan t : FileTree} {links : Nat} {base loc : Location}
    {steps : List Step}
    (hkept : ∀ l ∈ (plan.trail .entry links base steps).ways, ∀ node,
      plan.at? l = some node → t.at? l = some node)
    (h : plan.walkLinks .entry links base steps = .ok loc) :
    t.walkLinks .entry links base steps = .ok loc := by
  rw [leads_iff] at h ⊢
  induction h with
  | @arrive links base steps loc hgoes =>
      have hpart := leg_partOf_trail plan .entry links base steps
      exact .arrive (hgoes.congr_entry fun l hl => hkept l (hpart.ways hl))
  | @follow links base base' steps steps' loc hgoes _ ih =>
      have hpart := leg_partOf_trail plan .entry (links + 1) base steps
      have hrest := hgoes.trail_partOf links
      exact .follow (hgoes.congr_entry fun l hl => hkept l (hpart.ways hl))
        (ih fun l hl => hkept l (hrest.ways hl))

-- ── Paths ────────────────────────────────────────────────────────────────────

/-- The entry that a path names depends on the ways to it only. -/
theorem entryAt_congr {plan t : FileTree} {p : Path} {loc : Location}
    (hkept : ∀ l ∈ (plan.entryTrail p).ways, ∀ node,
      plan.at? l = some node → t.at? l = some node)
    (h : plan.entryAt p = .ok loc) : t.entryAt p = .ok loc := by
  obtain ⟨_, htext, h⟩ := Outcome.bind_eq_ok.1 h
  obtain ⟨_, htrimmed, hwalk⟩ := Outcome.bind_eq_ok.1 h
  exact Outcome.bind_eq_ok.2 ⟨_, htext, Outcome.bind_eq_ok.2 ⟨_, htrimmed,
    walkLinks_congr_entry hkept hwalk⟩⟩

/-- A path that leads to something leads there as long as everything along its trail stays. -/
theorem resolve_congr {plan t : FileTree} {p : Path} {loc : Location}
    (hkept : ∀ l ∈ (plan.trailOf .target p).all, ∀ node,
      plan.at? l = some node → t.at? l = some node)
    (h : plan.resolve .target p = .ok loc) (hloc : plan.at? loc ≠ none) :
    t.resolve .target p = .ok loc := by
  obtain ⟨_, htext, hwalk⟩ := Outcome.bind_eq_ok.1 h
  exact Outcome.bind_eq_ok.2 ⟨_, htext, walkLinks_congr hkept hwalk hloc⟩

/-- What a path leads to is on its trail. -/
theorem mem_trail_of_resolve {t : FileTree} {ending : Ending} {p : Path} {loc : Location}
    (h : t.resolve ending p = .ok loc) : loc ∈ (t.trailOf ending p).all := by
  obtain ⟨_, -, hwalk⟩ := Outcome.bind_eq_ok.1 h
  exact List.mem_append_right _ (mem_ends_of_walkLinks (fun w _ => (Grows.refl t w).plannedAt)
    (fun _ _ _ _ he => planned_of_at? he) hwalk)

/-- What a path stands for is at the location that it leads to. -/
theorem stat_eq_ok {t : FileTree} {p : Path} {node : Node} (h : t.stat p = .ok node) :
    ∃ loc, t.resolve .target p = .ok loc ∧ t.at? loc = some node := by
  obtain ⟨loc, hloc, h⟩ := Outcome.bind_eq_ok.1 h
  refine ⟨loc, hloc, ?_⟩
  cases hat : t.at? loc with
  | none => rw [hat] at h; exact nomatch h
  | some found =>
      rw [hat] at h
      exact congrArg some (Except.ok.inj h)

/-- What a path stands for stays while everything along its trail does. -/
theorem stat_congr {plan t : FileTree} {p : Path} {node : Node}
    (hkept : ∀ l ∈ (plan.trailOf .target p).all, ∀ node,
      plan.at? l = some node → t.at? l = some node)
    (h : plan.stat p = .ok node) : t.stat p = .ok node := by
  obtain ⟨loc, hloc, hat⟩ := stat_eq_ok h
  have hne : plan.at? loc ≠ none := by
    rw [hat]
    exact Option.some_ne_none node
  rw [stat]
  refine Outcome.bind_eq_ok.2 ⟨loc, resolve_congr hkept hloc hne, ?_⟩
  rw [hkept loc (mem_trail_of_resolve hloc) node hat]

/-- A path leads to an end of its trail, or nowhere. -/
theorem mem_ends_of_resolve {plan t : FileTree} {ending : Ending} {p : Path} {loc : Location}
    (hways : ∀ w ∈ (plan.trailOf ending p).ways, GrowsAt plan t w)
    (hends : ending ≠ .entry → ∀ e ∈ (plan.trailOf ending p).ends, ∀ target,
      t.at? e = some (.link target) → plan.planned e = .link target)
    (h : t.resolve ending p = .ok loc) : loc ∈ (plan.trailOf ending p).ends := by
  obtain ⟨_, -, h⟩ := Outcome.bind_eq_ok.1 h
  exact mem_ends_of_walkLinks (fun w hw => (hways w hw).plannedAt) hends h

/-- The entry that a path names is an end of the trail to it. -/
theorem mem_ends_of_entryAt {plan t : FileTree} {p : Path} {loc : Location}
    (hways : ∀ w ∈ (plan.entryTrail p).ways, GrowsAt plan t w) (h : t.entryAt p = .ok loc) :
    loc ∈ (plan.entryTrail p).ends := by
  obtain ⟨_, -, h⟩ := Outcome.bind_eq_ok.1 h
  exact mem_ends_of_resolve hways (fun hne => absurd rfl hne) h

-- ── Trees that hold to a plan ────────────────────────────────────────────────

/-- Nothing in the tree leads elsewhere than planned. -/
def HoldsTo (plan t : FileTree) : Prop := ∀ loc, PlannedAt plan t loc

theorem HoldsTo.refl (t : FileTree) : HoldsTo t t := fun loc => (Grows.refl t loc).plannedAt

theorem HoldsTo.mem_ends_of_resolve {plan t : FileTree} (h : HoldsTo plan t) {ending : Ending}
    {p : Path} {loc : Location} (hloc : t.resolve ending p = .ok loc) :
    loc ∈ (plan.trailOf ending p).ends := by
  obtain ⟨_, -, hwalk⟩ := Outcome.bind_eq_ok.1 hloc
  exact mem_ends_of_walkLinks (fun w _ => h w) (fun _ e _ _ hlink => (h e).link hlink) hwalk

theorem HoldsTo.mem_ends_of_entryAt {plan t : FileTree} (h : HoldsTo plan t) {p : Path}
    {loc : Location} (hloc : t.entryAt p = .ok loc) : loc ∈ (plan.entryTrail p).ends := by
  obtain ⟨_, -, hloc⟩ := Outcome.bind_eq_ok.1 hloc
  exact h.mem_ends_of_resolve hloc

/-- What goes away cannot lead elsewhere. -/
theorem HoldsTo.remove {plan t : FileTree} (h : HoldsTo plan t) (top : Location) :
    HoldsTo plan (t.remove top) := by
  intro loc
  rw [PlannedAt, at?_remove]
  by_cases hin : isWithin top loc = true ∧ loc ≠ []
  · rw [if_pos hin]
    exact .inl rfl
  · rw [if_neg hin]
    exact h loc

theorem HoldsTo.clear {plan t : FileTree} (h : HoldsTo plan t) (top : Location) :
    HoldsTo plan (t.clear top) := by
  intro loc
  rw [PlannedAt, at?_clear]
  by_cases hin : isBelow top loc = true
  · rw [if_pos hin]
    exact .inl rfl
  · rw [if_neg hin]
    exact h loc

/-- The second tree has what the first has, apart from files that were written and directories
    that came where there was nothing. -/
def BuildsOn (plan t : FileTree) : Prop :=
  ∀ loc, (∃ content, t.at? loc = some (.file content)) ∨ GrowsAt plan t loc

theorem BuildsOn.refl (t : FileTree) : BuildsOn t t := fun loc => .inr (Grows.refl t loc)

theorem BuildsOn.holdsTo {plan t : FileTree} (h : BuildsOn plan t) : HoldsTo plan t := by
  intro loc
  rcases h loc with hfile | hgrows
  · exact .inr (.inl hfile)
  · exact hgrows.plannedAt

theorem BuildsOn.grow {plan t t' : FileTree} (h : BuildsOn plan t) (hgrows : Grows t t') :
    BuildsOn plan t' := by
  intro loc
  rcases h loc with ⟨content, hfile⟩ | hbefore
  · rcases hgrows loc with hsame | ⟨hnone, -⟩
    · exact .inl ⟨content, hsame.trans hfile⟩
    · rw [hfile] at hnone
      exact nomatch hnone
  · exact .inr (hbefore.trans (hgrows loc))

theorem BuildsOn.write {plan t : FileTree} (h : BuildsOn plan t) (loc : Location)
    (content : Content) : BuildsOn plan (t.set loc (.file content)) := by
  intro other
  rw [GrowsAt, at?_set]
  by_cases heq : other = loc ∧ other ≠ []
  · rw [if_pos heq]
    exact .inl ⟨content, rfl⟩
  · rw [if_neg heq]
    exact h other

end Nomenclator.Files.FileTree
