import Nomenclator.Proofs.Files.Plain
import Nomenclator.Proofs.Files.Trail

/-! # Reach — where paths lead while files come and go

    A walk ends at a file, and it ends where nothing is.  So it makes no difference
    to a path whether there is a file or nothing at a location, and what a file holds:
    a path that leads to a location still leads there, whether anything is there or
    not, as long as directories and links along its trail stay (`resolve_keeps`).

    In particular writing to a file changes where no path leads (`KeepsWays.write`), and
    what was written is read (`stat_write`). -/

namespace Nomenclator.Files.FileTree

-- ── Locations at which trees may differ ──────────────────────────────────────

/-- It is the same to a walk which of the two trees it looks at here. -/
def KeepsWay (t u : FileTree) (loc : Location) : Prop :=
  u.at? loc = t.at? loc ∨ (t.EndsAt loc ∧ u.EndsAt loc)

/-- It is the same to all walks which of the two trees they go through. -/
def KeepsWays (t u : FileTree) : Prop := ∀ loc, KeepsWay t u loc

theorem KeepsWay.endsAt {t u : FileTree} {loc : Location} (h : KeepsWay t u loc)
    (hends : t.EndsAt loc) : u.EndsAt loc := by
  rcases h with hsame | ⟨-, hu⟩
  · rw [EndsAt, hsame]
    exact hends
  · exact hu

theorem KeepsWay.of_not_endsAt {t u : FileTree} {loc : Location} (h : KeepsWay t u loc)
    (hends : ¬ t.EndsAt loc) : u.at? loc = t.at? loc :=
  h.resolve_right fun hboth => hends hboth.1

theorem KeepsWay.dir {t u : FileTree} {loc : Location} (h : KeepsWay t u loc)
    (hdir : t.at? loc = some .dir) : u.at? loc = some .dir :=
  (h.of_not_endsAt fun hends => hends.not_dir hdir).trans hdir

theorem KeepsWay.link {t u : FileTree} {loc : Location} (h : KeepsWay t u loc) {target : Path}
    (hlink : t.at? loc = some (.link target)) : u.at? loc = some (.link target) :=
  (h.of_not_endsAt fun hends => hends.not_link target hlink).trans hlink

theorem KeepsWay.symm {t u : FileTree} {loc : Location} (h : KeepsWay t u loc) :
    KeepsWay u t loc :=
  h.imp Eq.symm And.symm

theorem KeepsWays.symm {t u : FileTree} (h : KeepsWays t u) : KeepsWays u t :=
  fun loc => (h loc).symm

-- ── Walks ────────────────────────────────────────────────────────────────────

/-- A walk that does not fail goes the same way in a tree that keeps the ways of the leg. -/
theorem Goes.keeps {t u : FileTree} {ending : Ending} {base : Location} {steps : List Step}
    {walk : Walk} (h : t.Goes ending base steps walk)
    (hkept : ∀ loc ∈ (t.leg ending base steps).toTrail.all, KeepsWay t u loc) :
    u.Goes ending base steps walk := by
  induction h with
  | done => exact .done
  | here _ ih => exact .here (ih hkept)
  | slash _ ih => exact .slash (ih hkept)
  | root hdown => exact .root hdown
  | up hbase _ ih =>
      rw [leg_up t ending hbase] at hkept
      exact .up hbase (ih hkept)
  | entry hending => exact .entry hending
  | stop hlook hends => exact .stop hlook ((hkept _ (hlook.mem_leg t _)).endsAt hends)
  | dir hlook hdir _ ih =>
      have hdir' := (hkept _ (hlook.mem_leg t _)).dir hdir
      rw [hlook.leg_dir (planned_of_at? hdir)] at hkept
      exact .dir hlook hdir' (ih fun loc hloc => hkept loc (Leg.mem_all_see.2 (.inr hloc)))
  | link hlook hlink => exact .link hlook ((hkept _ (hlook.mem_leg t _)).link hlink)

theorem walkLinks_keeps {t u : FileTree} {ending : Ending} {links : Nat} {base loc : Location}
    {steps : List Step} (hkept : ∀ l ∈ (t.trail ending links base steps).all, KeepsWay t u l)
    (h : t.walkLinks ending links base steps = .ok loc) :
    u.walkLinks ending links base steps = .ok loc := by
  rw [leads_iff] at h ⊢
  induction h with
  | @arrive links base steps loc hgoes =>
      have hpart := leg_partOf_trail t ending links base steps
      exact .arrive (hgoes.keeps fun l hl => hkept l (hpart.all hl))
  | @follow links base base' steps steps' loc hgoes _ ih =>
      have hpart := leg_partOf_trail t ending (links + 1) base steps
      have hrest := hgoes.trail_partOf links
      exact .follow (hgoes.keeps fun l hl => hkept l (hpart.all hl))
        (ih fun l hl => hkept l (hrest.all hl))

/-- **A path leads where it led**, whether anything is there or not, in a tree that keeps the
    ways of its trail. -/
theorem resolve_keeps {t u : FileTree} {ending : Ending} {p : Path} {loc : Location}
    (hkept : ∀ l ∈ (t.trailOf ending p).all, KeepsWay t u l)
    (h : t.resolve ending p = .ok loc) : u.resolve ending p = .ok loc := by
  obtain ⟨_, htext, hwalk⟩ := Outcome.bind_eq_ok.1 h
  exact Outcome.bind_eq_ok.2 ⟨_, htext, walkLinks_keeps hkept hwalk⟩

/-- Directories stay. -/
theorem KeepsWays.dir {t u : FileTree} (h : KeepsWays t u) {loc : Location}
    (hdir : t.at? loc = some .dir) : u.at? loc = some .dir :=
  (h loc).dir hdir

theorem KeepsWays.resolve {t u : FileTree} (h : KeepsWays t u) {ending : Ending} {p : Path}
    {loc : Location} (hloc : t.resolve ending p = .ok loc) : u.resolve ending p = .ok loc :=
  resolve_keeps (fun l _ => h l) hloc

theorem KeepsWays.entryAt {t u : FileTree} (h : KeepsWays t u) {p : Path} {loc : Location}
    (hloc : t.entryAt p = .ok loc) : u.entryAt p = .ok loc := by
  obtain ⟨_, htext, hloc⟩ := Outcome.bind_eq_ok.1 hloc
  exact Outcome.bind_eq_ok.2 ⟨_, htext, h.resolve hloc⟩

-- ── Writing ──────────────────────────────────────────────────────────────────

/-- The walk arrives at no link, and follows one only from a directory. -/
def Walk.Through (t : FileTree) : Walk → Prop
  | .arrive loc => ∀ target, t.at? loc ≠ some (.link target)
  | .fault _ => True
  | .follow base _ => t.DirsTo base

/-- A walk that looks up the last name goes through links. -/
theorem Goes.through {t : FileTree} {ending : Ending} (hending : ending ≠ .entry) {base : Location}
    {steps : List Step} {walk : Walk} (h : t.Goes ending base steps walk) (hbase : t.DirsTo base) :
    walk.Through t := by
  have hroot : ∀ {loc : Location}, t.DirsTo loc → ∀ target, t.at? loc ≠ some (.link target) :=
    fun hdirs target hlink => nomatch hdirs.self.symm.trans hlink
  induction h with
  | done => exact hroot hbase
  | here _ ih | slash _ ih => exact ih hbase
  | root => exact hroot t.dirsTo_root
  | up _ _ ih => exact ih hbase.dropLast
  | entry heq => exact absurd heq hending
  | stop _ hends => exact hends.not_link
  | dir _ hdir _ ih => exact ih (hbase.down hdir)
  | link => exact hbase.follow _

theorem walkLinks_noLink {t : FileTree} {ending : Ending} (hending : ending ≠ .entry)
    {links : Nat} {base loc : Location} {steps : List Step} (hbase : t.DirsTo base)
    (h : t.walkLinks ending links base steps = .ok loc) (target : Path) :
    t.at? loc ≠ some (.link target) := by
  rw [leads_iff] at h
  induction h with
  | arrive hgoes => exact hgoes.through hending hbase target
  | follow hgoes _ ih => exact ih (hgoes.through hending hbase)

/-- A file is written where there is a file or nothing. -/
theorem endsAt_of_write {t t' : FileTree} {p : Path} {content : Content}
    (h : t.write p content = .ok t') :
    ∃ loc, t.resolve .place p = .ok loc ∧ loc ≠ [] ∧ t.EndsAt loc
      ∧ t' = t.set loc (.file content) := by
  obtain ⟨loc, hloc, hdir, rfl⟩ := write_eq_ok h
  obtain ⟨_, -, hwalk⟩ := Outcome.bind_eq_ok.1 hloc
  refine ⟨loc, hloc, fun hnil => hdir (hnil ▸ rfl), ?_, rfl⟩
  rw [EndsAt]
  cases hat : t.at? loc with
  | none => exact .inl rfl
  | some node =>
      cases node with
      | dir => exact absurd hat hdir
      | file c => exact .inr ⟨c, rfl⟩
      | link target =>
          exact absurd hat (walkLinks_noLink (by decide) t.dirsTo_root hwalk target)

/-- Writing to a file changes where no path leads. -/
theorem KeepsWays.write {t t' : FileTree} {p : Path} {content : Content}
    (h : t.write p content = .ok t') : KeepsWays t t' := by
  obtain ⟨loc, -, hnil, hends, rfl⟩ := endsAt_of_write h
  intro other
  rw [KeepsWay, EndsAt, EndsAt, at?_set]
  by_cases heq : other = loc ∧ other ≠ []
  · rw [if_pos heq, heq.1]
    exact .inr ⟨hends, .inr ⟨content, rfl⟩⟩
  · rw [if_neg heq]
    exact .inl rfl

-- ── Reading what was written ─────────────────────────────────────────────────

theorem walkLinks_place {t : FileTree} {links : Nat} {base loc : Location} {steps : List Step}
    (h : t.walkLinks .place links base steps = .ok loc) :
    t.walkLinks .target links base steps = .ok loc := by
  -- the last name is looked up for both endings
  have htarget : ∀ {base : Location} {steps : List Step} {walk : Walk},
      t.Goes .place base steps walk → t.Goes .target base steps walk :=
    fun hgoes => hgoes.target fun hending => nomatch hending
  rw [leads_iff] at h ⊢
  induction h with
  | arrive hgoes => exact .arrive (htarget hgoes)
  | follow hgoes _ ih => exact .follow (htarget hgoes) ih

/-- Where a file can be put by a path, the path leads. -/
theorem resolve_target_of_place {t : FileTree} {p : Path} {loc : Location}
    (h : t.resolve .place p = .ok loc) : t.resolve .target p = .ok loc := by
  obtain ⟨_, htext, hwalk⟩ := Outcome.bind_eq_ok.1 h
  exact Outcome.bind_eq_ok.2 ⟨_, htext, walkLinks_place hwalk⟩

/-- **What was written is read**, by the path by which it was written. -/
theorem stat_write {t t' : FileTree} {p : Path} {content : Content}
    (h : t.write p content = .ok t') : t'.stat p = .ok (.file content) := by
  have hways := KeepsWays.write h
  obtain ⟨loc, hloc, hnil, -, rfl⟩ := endsAt_of_write h
  refine stat_of_resolve (hways.resolve (resolve_target_of_place hloc)) ?_
  rw [at?_set_of_ne_nil t hnil, if_pos rfl]

/-- A file that was written can be written again. -/
theorem write_write {t t' : FileTree} {p : Path} {content : Content}
    (h : t.write p content = .ok t') (other : Content) : ∃ t'', t'.write p other = .ok t'' := by
  have hways := KeepsWays.write h
  obtain ⟨loc, hloc, hnil, -, rfl⟩ := endsAt_of_write h
  refine ⟨(t.set loc (.file content)).set loc (.file other),
    Outcome.bind_eq_ok.2 ⟨loc, hways.resolve hloc, ?_⟩⟩
  rw [at?_set_of_ne_nil t hnil, if_pos rfl]

-- ── Plain trees ──────────────────────────────────────────────────────────────

theorem Plain.dir_of_within {t : FileTree} (h : t.Plain) {top loc : Location}
    (hin : isWithin top loc = true) (hdir : t.at? loc = some .dir) : t.at? top = some .dir := by
  by_contra htop
  have hne : loc ≠ top := fun heq => htop (heq ▸ hdir)
  rw [h.nothing_below htop hin hne] at hdir
  cases hdir

/-- In a plain tree a walk that arrives goes through directories. -/
theorem Plain.leg_of_arrive {t : FileTree} (h : t.Plain) {ending : Ending} {base loc : Location}
    {steps : List Step} (hgoes : t.Goes ending base steps (.arrive loc)) :
    (t.leg ending base steps).next = none
      ∧ ∀ l ∈ (t.leg ending base steps).toTrail.all, l = loc ∨ t.at? l = some .dir := by
  generalize hwalk : Walk.arrive loc = walk at hgoes
  induction hgoes with
  | done =>
      obtain rfl := Walk.arrive.inj hwalk
      exact ⟨rfl, fun l hl => .inl (List.mem_singleton.1 hl)⟩
  | here _ ih | slash _ ih => exact ih hwalk
  | root hdown =>
      obtain rfl := Walk.arrive.inj hwalk
      rw [leg, if_neg hdown]
      exact ⟨rfl, fun l hl => .inl (List.mem_singleton.1 hl)⟩
  | up hbase _ ih =>
      rw [leg_up t ending hbase]
      exact ih hwalk
  | entry hending =>
      obtain rfl := Walk.arrive.inj hwalk
      rw [hending]
      exact ⟨rfl, fun l hl => .inl (List.mem_singleton.1 hl)⟩
  | @stop base name hlook hends =>
      obtain rfl := Walk.arrive.inj hwalk
      rw [leg, if_neg hlook.notEntry, if_neg hlook.notSlash, if_neg hlook.short, planned]
      rcases hends with hat | ⟨content, hat⟩
      · rw [hat]
        exact ⟨rfl, fun l hl => .inl ((Leg.mem_all_see.1 hl).elim id List.mem_singleton.1)⟩
      · rw [hat]
        exact ⟨rfl, fun l hl => .inl (List.mem_singleton.1 hl)⟩
  | dir hlook hdir _ ih =>
      obtain ⟨hnext, hall⟩ := ih hwalk
      rw [hlook.leg_dir (planned_of_at? hdir)]
      refine ⟨(Leg.next_see _ _ _).trans hnext, fun l hl => ?_⟩
      rcases Leg.mem_all_see.1 hl with rfl | hl
      · exact .inr hdir
      · exact hall l hl
  | link _ hlink => exact absurd hlink (h.noLink _ _)

/-- In a plain tree there are directories along the trail of a path that leads somewhere. -/
theorem Plain.dir_of_mem_trail {t : FileTree} (h : t.Plain) {ending : Ending} {p : Path}
    {loc l : Location} (hloc : t.resolve ending p = .ok loc) (hl : l ∈ (t.trailOf ending p).all) :
    l = loc ∨ t.at? l = some .dir := by
  obtain ⟨_, -, hwalk⟩ := Outcome.bind_eq_ok.1 hloc
  obtain ⟨hnext, hall⟩ :=
    h.leg_of_arrive (h.walkLinks_eq_ok.1 hwalk)
  refine hall l ?_
  rwa [trailOf, linkLimit, trail, hnext] at hl

end Nomenclator.Files.FileTree
