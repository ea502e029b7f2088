import Nomenclator.Proofs.Files.Operation

/-! # Walks — what a walk does, step by step

    A walk that does not fail stays where it is, goes up, or goes down to a directory,
    until it ends: after its last step, at a name that is not looked up, at a file or
    where nothing is, or at a link.

    * `Goes` has one rule for each of these, and tells all there is to know of a walk
      that does not fail (`goes_or_fault`, `Goes.walk`);
    * `Leads` does so for a walk through links (`leads_iff`).

    Facts about paths are inductions on these rules, so that none of them opens `walk`. -/

namespace Nomenclator.Files.FileTree

variable {t : FileTree} {ending : Ending} {base loc : Location} {name : Name}
  {step : Step} {later steps : List Step}

-- ── Where walks are ──────────────────────────────────────────────────────────

/-- The location and all that is above it are directories. -/
def DirsTo (t : FileTree) (loc : Location) : Prop := ∀ top, top <+: loc → t.at? top = some .dir

theorem dirsTo_root (t : FileTree) : t.DirsTo [] := by
  intro top htop
  rw [List.prefix_nil.1 htop]
  rfl

theorem DirsTo.self (h : t.DirsTo loc) : t.at? loc = some .dir := h loc (List.prefix_refl loc)

theorem DirsTo.dropLast (h : t.DirsTo loc) : t.DirsTo loc.dropLast :=
  fun top htop => h top (htop.trans (List.dropLast_prefix loc))

theorem DirsTo.down (h : t.DirsTo loc) (hdir : t.at? (loc ++ [name]) = some .dir) :
    t.DirsTo (loc ++ [name]) := by
  intro top htop
  rcases List.prefix_concat_iff.1 htop with heq | htop
  · rw [heq]
    exact hdir
  · exact h top htop

/-- A walk follows a link from the root or from the directory in which the link is. -/
theorem DirsTo.follow (h : t.DirsTo loc) (absolute : Bool) :
    t.DirsTo (if absolute then [] else loc) := by
  cases absolute with
  | true => exact t.dirsTo_root
  | false => exact h

/-- A walk ends here: there is a file, or nothing. -/
def EndsAt (t : FileTree) (loc : Location) : Prop :=
  t.at? loc = none ∨ ∃ content, t.at? loc = some (.file content)

theorem EndsAt.not_dir (h : t.EndsAt loc) : t.at? loc ≠ some .dir := by
  rintro hdir
  rcases h with hat | ⟨content, hat⟩
  · exact nomatch hat.symm.trans hdir
  · exact nomatch hat.symm.trans hdir

theorem EndsAt.not_link (h : t.EndsAt loc) (target : Path) : t.at? loc ≠ some (.link target) := by
  rintro hlink
  rcases h with hat | ⟨content, hat⟩
  · exact nomatch hat.symm.trans hlink
  · exact nomatch hat.symm.trans hlink

/-- What can be at a location, as far as a walk is concerned. -/
theorem endsAt_or (t : FileTree) (loc : Location) :
    t.EndsAt loc ∨ t.at? loc = some .dir ∨ ∃ target, t.at? loc = some (.link target) := by
  rw [EndsAt]
  cases t.at? loc with
  | none => exact .inl (.inl rfl)
  | some node =>
      cases node with
      | dir => exact .inr (.inl rfl)
      | file content => exact .inl (.inr ⟨content, rfl⟩)
      | link target => exact .inr (.inr ⟨target, rfl⟩)

-- ── One walk ─────────────────────────────────────────────────────────────────

/-- The name is looked up: it is not the entry that the walk is for, nor a file to be written
    that a slash comes after, and it is not too long. -/
structure LooksUp (ending : Ending) (name : Name) (later : List Step) : Prop where
  notEntry : ¬ (later.isEmpty && ending == .entry) = true
  notSlash : ¬ (later == [.slash] && ending == .place) = true
  short : ¬ isTooLong name = true

theorem looksUp_target (later : List Step) (h : isTooLong name = false) :
    LooksUp .target name later where
  notEntry hentry := nomatch (Bool.and_eq_true_iff.1 hentry).2
  notSlash hslash := nomatch (Bool.and_eq_true_iff.1 hslash).2
  short := Bool.eq_false_iff.1 h

/-- A name with more to walk after it is looked up whatever the walk is for, unless the walk is
    for a file to be written. -/
theorem looksUp_of_ne_nil (hlater : later ≠ []) (hending : ending ≠ .place)
    (h : isTooLong name = false) : LooksUp ending name later where
  notEntry hentry := hlater (List.isEmpty_iff.1 (Bool.and_eq_true_iff.1 hentry).1)
  notSlash hslash := hending (eq_of_beq (Bool.and_eq_true_iff.1 hslash).2)
  short := Bool.eq_false_iff.1 h

theorem LooksUp.isTooLong_eq (h : LooksUp ending name later) : isTooLong name = false :=
  Bool.eq_false_iff.2 h.short

theorem LooksUp.target (h : LooksUp ending name later) (later' : List Step) :
    LooksUp .target name later' :=
  looksUp_target later' h.isTooLong_eq

theorem short_of_lookUp {node : Option Node} (h : t.lookUp (base ++ [name]) = .ok node) :
    isTooLong name = false := by
  rw [lookUp, List.getLast?_concat] at h
  dsimp only at h
  by_cases hlong : isTooLong name = true
  · rw [if_pos hlong] at h
    cases h
  · exact Bool.eq_false_iff.2 hlong

/-- From a directory, the steps are walked like this, and do not fail. -/
inductive Goes (t : FileTree) (ending : Ending) : Location → List Step → Walk → Prop
  | done {base : Location} : Goes t ending base [] (.arrive base)
  | here {base : Location} {later : List Step} {walk : Walk} (rest : Goes t ending base later walk) :
      Goes t ending base (.here :: later) walk
  | slash {base : Location} {later : List Step} {walk : Walk}
      (rest : Goes t ending base later walk) : Goes t ending base (.slash :: later) walk
  | root {later : List Step} (hdown : ¬ later.any Step.isDown = true) :
      Goes t ending [] (.up :: later) (.arrive [])
  | up {base : Location} {later : List Step} {walk : Walk} (hbase : base ≠ [])
      (rest : Goes t ending base.dropLast later walk) : Goes t ending base (.up :: later) walk
  | entry {base : Location} {name : Name} (hending : ending = .entry) :
      Goes t ending base [.down name] (.arrive (base ++ [name]))
  | stop {base : Location} {name : Name} (hlook : LooksUp ending name [])
      (hends : t.EndsAt (base ++ [name])) :
      Goes t ending base [.down name] (.arrive (base ++ [name]))
  | dir {base : Location} {name : Name} {later : List Step} {walk : Walk}
      (hlook : LooksUp ending name later) (hdir : t.at? (base ++ [name]) = some .dir)
      (rest : Goes t ending (base ++ [name]) later walk) :
      Goes t ending base (.down name :: later) walk
  | link {base : Location} {name : Name} {later : List Step} {target : Path}
      (hlook : LooksUp ending name later) (hlink : t.at? (base ++ [name]) = some (.link target)) :
      Goes t ending base (.down name :: later)
        (.follow (if target.isAbsolute then [] else base) (target.steps ++ later))

theorem walk_up (t : FileTree) (ending : Ending) (hbase : base ≠ []) (later : List Step) :
    t.walk ending base (.up :: later) = t.walk ending base.dropLast later := by
  rw [walk]
  exact hbase

/-- What is done with a name that is looked up. -/
theorem LooksUp.walk (h : LooksUp ending name later) (t : FileTree) (base : Location) :
    t.walk ending base (.down name :: later) = match t.at? (base ++ [name]) with
      | some .dir => t.walk ending (base ++ [name]) later
      | some (.file _) => if later.isEmpty then .arrive (base ++ [name]) else .fault .notADirectory
      | some (.link target) =>
        .follow (if target.isAbsolute then [] else base) (target.steps ++ later)
      | none => if later.isEmpty then .arrive (base ++ [name]) else .fault .notFound := by
  rw [FileTree.walk, if_neg h.notEntry, if_neg h.notSlash]
  exact if_neg h.short

theorem Goes.walk {walk : Walk} (h : t.Goes ending base steps walk) :
    t.walk ending base steps = walk := by
  induction h with
  | done => rfl
  | here _ ih | slash _ ih => exact ih
  | root hdown => rw [FileTree.walk, if_neg hdown]
  | up hbase _ ih => rw [walk_up t ending hbase, ih]
  | entry hending =>
      rw [hending]
      rfl
  | stop hlook hends =>
      rw [hlook.walk]
      rcases hends with hat | ⟨content, hat⟩
      · rw [hat]
        rfl
      · rw [hat]
        rfl
  | dir hlook hdir _ ih => rw [hlook.walk, hdir, ih]
  | link hlook hlink => rw [hlook.walk, hlink]

/-- A walk fails, or goes by the rules. -/
theorem goes_or_fault (t : FileTree) (ending : Ending) (base : Location) (steps : List Step) :
    (∃ f, t.walk ending base steps = .fault f)
      ∨ t.Goes ending base steps (t.walk ending base steps) := by
  induction steps generalizing base with
  | nil => exact .inr .done
  | cons step later ih =>
      cases step with
      | here => exact (ih base).imp_right .here
      | slash => exact (ih base).imp_right .slash
      | up =>
          by_cases hbase : base = []
          · subst hbase
            rw [walk]
            by_cases hdown : later.any Step.isDown = true
            · rw [if_pos hdown]
              exact .inl ⟨_, rfl⟩
            · rw [if_neg hdown]
              exact .inr (.root hdown)
          · rw [walk_up t ending hbase]
            exact (ih base.dropLast).imp_right (.up hbase)
      | down name =>
          by_cases hentry : (later.isEmpty && ending == .entry) = true
          · rw [walk, if_pos hentry]
            obtain ⟨hempty, hending⟩ := Bool.and_eq_true_iff.1 hentry
            rw [List.isEmpty_iff.1 hempty]
            exact .inr (.entry (eq_of_beq hending))
          by_cases hslash : (later == [.slash] && ending == .place) = true
          · rw [walk, if_neg hentry, if_pos hslash]
            exact .inl ⟨_, rfl⟩
          by_cases hlong : isTooLong name = true
          · rw [walk, if_neg hentry, if_neg hslash, if_pos hlong]
            exact .inl ⟨_, rfl⟩
          have hlook : LooksUp ending name later := ⟨hentry, hslash, hlong⟩
          rcases t.endsAt_or (base ++ [name]) with hends | hdir | ⟨target, hlink⟩
          · -- with more to go the walk fails here, and else it arrives
            cases later with
            | nil =>
                have hstop := Goes.stop hlook hends
                rw [hstop.walk]
                exact .inr hstop
            | cons next rest =>
                rw [hlook.walk]
                rcases hends with hat | ⟨content, hat⟩
                · rw [hat]
                  exact .inl ⟨_, rfl⟩
                · rw [hat]
                  exact .inl ⟨_, rfl⟩
          · rw [hlook.walk, hdir]
            exact (ih _).imp_right (.dir hlook hdir)
          · rw [hlook.walk, hlink]
            exact .inr (.link hlook hlink)

theorem goes_of_arrive (h : t.walk ending base steps = .arrive loc) :
    t.Goes ending base steps (.arrive loc) := by
  rcases t.goes_or_fault ending base steps with ⟨f, hfault⟩ | hgoes
  · exact nomatch hfault.symm.trans h
  · rwa [h] at hgoes

theorem goes_of_follow {base' : Location} {steps' : List Step}
    (h : t.walk ending base steps = .follow base' steps') :
    t.Goes ending base steps (.follow base' steps') := by
  rcases t.goes_or_fault ending base steps with ⟨f, hfault⟩ | hgoes
  · exact nomatch hfault.symm.trans h
  · rwa [h] at hgoes

/-- A walk arrives at its last name, whatever is there, unless it is a link. -/
theorem Goes.last (hlook : LooksUp ending name [])
    (hlink : ∀ target, t.at? (base ++ [name]) ≠ some (.link target)) :
    t.Goes ending base [.down name] (.arrive (base ++ [name])) := by
  rcases t.endsAt_or (base ++ [name]) with hends | hdir | ⟨target, hat⟩
  · exact .stop hlook hends
  · exact .dir hlook hdir .done
  · exact absurd hat (hlink target)

theorem Goes.entry_or_last (hending : ending ≠ .place) (hshort : isTooLong name = false)
    (hlink : ∀ target, t.at? (base ++ [name]) ≠ some (.link target)) :
    t.Goes ending base [.down name] (.arrive (base ++ [name])) := by
  cases ending with
  | entry => exact .entry rfl
  | target => exact .last (looksUp_target [] hshort) hlink
  | place => exact absurd rfl hending

/-- A walk that arrives by going down ends there or goes on from a directory. -/
theorem Goes.down_inv (h : t.Goes ending base (.down name :: later) (.arrive loc)) :
    (later = [] ∧ loc = base ++ [name])
      ∨ (LooksUp ending name later ∧ t.at? (base ++ [name]) = some .dir
        ∧ t.Goes ending (base ++ [name]) later (.arrive loc)) := by
  cases h with
  | entry | stop => exact .inl ⟨rfl, rfl⟩
  | dir hlook hdir rest => exact .inr ⟨hlook, hdir, rest⟩

-- ── Walks through links ──────────────────────────────────────────────────────

/-- From a directory, the steps lead to the location through links, at most as many as the
    number says. -/
inductive Leads (t : FileTree) (ending : Ending) :
    (links : Nat) → Location → List Step → Location → Prop
  | arrive {links : Nat} {base : Location} {steps : List Step} {loc : Location}
      (hgoes : t.Goes ending base steps (.arrive loc)) : Leads t ending links base steps loc
  | follow {links : Nat} {base base' : Location} {steps steps' : List Step} {loc : Location}
      (hgoes : t.Goes ending base steps (.follow base' steps'))
      (rest : Leads t ending links base' steps' loc) : Leads t ending (links + 1) base steps loc

theorem Leads.walkLinks {links : Nat} (h : t.Leads ending links base steps loc) :
    t.walkLinks ending links base steps = .ok loc := by
  induction h with
  | @arrive links _ _ _ hgoes =>
      cases links with
      | zero => rw [FileTree.walkLinks, hgoes.walk]
      | succ links => rw [FileTree.walkLinks, hgoes.walk]
  | follow hgoes _ ih =>
      rw [FileTree.walkLinks, hgoes.walk]
      exact ih

theorem leads_iff {links : Nat} :
    t.walkLinks ending links base steps = .ok loc ↔ t.Leads ending links base steps loc := by
  refine ⟨fun h => ?_, Leads.walkLinks⟩
  induction links generalizing base steps with
  | zero =>
      rw [walkLinks] at h
      cases hwalk : t.walk ending base steps with
      | arrive loc' =>
          rw [hwalk] at h
          exact .arrive (goes_of_arrive (Except.ok.inj h ▸ hwalk))
      | fault f => rw [hwalk] at h; cases h
      | follow base' steps' => rw [hwalk] at h; cases h
  | succ links ih =>
      rw [walkLinks] at h
      cases hwalk : t.walk ending base steps with
      | arrive loc' =>
          rw [hwalk] at h
          exact .arrive (goes_of_arrive (Except.ok.inj h ▸ hwalk))
      | fault f => rw [hwalk] at h; cases h
      | follow base' steps' =>
          rw [hwalk] at h
          exact .follow (goes_of_follow hwalk) (ih h)

/-- From above the root, steps lead to the root or nowhere. -/
theorem Leads.of_root {links : Nat} (h : t.Leads ending links [] (.up :: later) loc) :
    ¬ later.any Step.isDown = true ∧ loc = [] := by
  cases h with
  | arrive hgoes =>
      cases hgoes with
      | root hdown => exact ⟨hdown, rfl⟩
      | up hne _ => exact absurd rfl hne
  | follow hgoes _ =>
      cases hgoes with
      | up hne _ => exact absurd rfl hne

/-- A path leads to a location if it can be walked at all and its steps lead there. -/
theorem resolve_eq_ok_iff {p : Path} : t.resolve ending p = .ok loc
    ↔ checkText p = .ok () ∧ t.Leads ending linkLimit [] p.steps loc := by
  rw [resolve, Outcome.bind_eq_ok, ← leads_iff]
  exact ⟨fun ⟨_, htext, hwalk⟩ => ⟨htext, hwalk⟩, fun ⟨htext, hwalk⟩ => ⟨(), htext, hwalk⟩⟩

end Nomenclator.Files.FileTree
