import Nomenclator.Proofs.Files.Forward

/-! # Directories that are removed — what their paths lead to afterwards

    A directory is emptied first and removed then.  The second step needs a path whose
    last piece is a name; but by then the path may not lead to the directory any more,
    since it may go through one that was in there.

    * `Plain.entry_of_target` — in a tree without links, where a path leads is the entry
      that it names, and can be looked up;
    * `Plain.removeDirAll_gone` — so a path that ends in a name leads nowhere afterwards, and
      any other may still lead to an empty directory. -/

namespace Nomenclator.Files.FileTree

variable {t : FileTree}

-- ── Entries ──────────────────────────────────────────────────────────────────

/-- Only slashes are left to walk. -/
def OnlySlashes (steps : List Step) : Prop := ∀ step ∈ steps, step = .slash

theorem OnlySlashes.any_isDown {steps : List Step} (h : OnlySlashes steps) :
    steps.any Step.isDown = false := by
  refine List.any_eq_false.2 fun step hstep hdown => ?_
  rw [h step hstep] at hdown
  cases hdown

theorem OnlySlashes.goes {steps : List Step} (h : OnlySlashes steps) (ending : Ending)
    (base : Location) : t.Goes ending base steps (.arrive base) := by
  induction steps with
  | nil => exact .done
  | cons step later ih =>
      obtain rfl := h step List.mem_cons_self
      exact .slash (ih fun other hother => h other (List.mem_cons_of_mem _ hother))

/-- A walk that arrives does so also if its end is not looked up and slashes after it are left
    out. -/
theorem Goes.entry_of_target {base loc : Location} {front slashes : List Step}
    (hslashes : OnlySlashes slashes)
    (hgoes : t.Goes .target base (front ++ slashes) (.arrive loc)) :
    t.Goes .entry base front (.arrive loc) := by
  have hend : ∀ {base : Location}, t.Goes .target base slashes (.arrive loc) → loc = base :=
    fun hgoes => Walk.arrive.inj (hgoes.walk.symm.trans (hslashes.goes .target _).walk)
  induction front generalizing base with
  | nil =>
      rw [hend hgoes]
      exact .done
  | cons step later ih =>
      rw [List.cons_append] at hgoes
      cases step with
      | here =>
          cases hgoes with
          | here hgoes => exact .here (ih hgoes)
      | slash =>
          cases hgoes with
          | slash hgoes => exact .slash (ih hgoes)
      | up =>
          cases hgoes with
          | root hdown =>
              rw [List.any_append, hslashes.any_isDown, Bool.or_false] at hdown
              exact .root hdown
          | up hne hgoes => exact .up hne (ih hgoes)
      | down name =>
          rcases hgoes.down_inv with ⟨hnil, rfl⟩ | ⟨hlook, hdir, hgoes⟩
          · rw [(List.append_eq_nil_iff.1 hnil).1]
            exact .entry rfl
          by_cases hnil : later = []
          · subst hnil
            rw [hend hgoes]
            exact .entry rfl
          · exact .dir (looksUp_of_ne_nil hnil Ending.noConfusion hlook.isTooLong_eq) hdir
              (ih hgoes)

/-- No name is too long on the way to where a walk arrives. -/
theorem Goes.short {base loc : Location} {steps : List Step}
    (hgoes : t.Goes .target base steps (.arrive loc))
    (hbase : ∀ name ∈ base, isTooLong name = false) : ∀ name ∈ loc, isTooLong name = false := by
  have hconcat : ∀ {base : Location} {name : Name}, (∀ name ∈ base, isTooLong name = false) →
      isTooLong name = false → ∀ other ∈ base ++ [name], isTooLong other = false := by
    intro base name hbase hname other hother
    rcases List.mem_append.1 hother with hold | hlast
    · exact hbase other hold
    · exact List.mem_singleton.1 hlast ▸ hname
  generalize hwalk : Walk.arrive loc = walk at hgoes
  induction hgoes with
  | done | root =>
      rw [Walk.arrive.inj hwalk]
      exact hbase
  | here _ ih | slash _ ih => exact ih hbase hwalk
  | up _ _ ih => exact ih (fun name hname => hbase name (List.dropLast_subset _ hname)) hwalk
  | entry hending => cases hending
  | stop hlook _ =>
      rw [Walk.arrive.inj hwalk]
      exact hconcat hbase hlook.isTooLong_eq
  | dir hlook _ _ ih => exact ih (hconcat hbase hlook.isTooLong_eq) hwalk
  | link => cases hwalk

/-- **Where a path leads is the entry that it names**, and it can be looked up there. -/
theorem Plain.entry_of_target (h : t.Plain) {p : Path} {loc : Location}
    (hleads : t.resolve .target p = .ok loc) :
    t.resolve .entry p = .ok loc ∧ t.entryAt p = .ok loc ∧ t.lookUp loc = .ok (t.at? loc) := by
  obtain ⟨_, htext, hwalk⟩ := Outcome.bind_eq_ok.1 hleads
  rw [h.walkLinks_eq_ok] at hwalk
  have hresolve : ∀ {q : Path}, checkText q = .ok () → t.Goes .entry [] q.steps (.arrive loc) →
      t.resolve .entry q = .ok loc :=
    fun hcheck hgoes => Outcome.bind_eq_ok.2 ⟨(), hcheck, h.walkLinks_eq_ok.2 hgoes⟩
  have hnone : OnlySlashes [] := fun _ hmem => absurd hmem List.not_mem_nil
  have hone : OnlySlashes [.slash] := fun _ hmem => List.mem_singleton.1 hmem
  have hentry : t.resolve .entry p = .ok loc :=
    hresolve htext (.entry_of_target hnone (by rw [List.append_nil]; exact hwalk))
  refine ⟨hentry, Outcome.bind_eq_ok.2 ⟨(), htext, ?_⟩, ?_⟩
  · rcases Path.trimmed_cases p with hsame | ⟨slashes, hpath, hne, hsteps⟩
    · rw [hsame]
      exact hentry
    · have hwhole : checkText ⟨p.trimmed.text ++ slashes⟩ = .ok () := by
        rw [← hpath]
        exact htext
      exact hresolve (checkText_of_append hne hwhole) (.entry_of_target hone (hsteps ▸ hwalk))
  · rw [lookUp]
    cases hlast : loc.getLast? with
    | none => rfl
    | some name =>
        have hshort := hwalk.short (fun _ hmem => absurd hmem List.not_mem_nil) name
          (List.mem_of_getLast? hlast)
        dsimp only
        rw [hshort, if_neg Bool.false_ne_true]

-- ── Removing ─────────────────────────────────────────────────────────────────

theorem Plain.clear {t : FileTree} (h : t.Plain) (top : Location) : (t.clear top).Plain := by
  refine ⟨fun loc target hat => ?_, fun loc name hat => ?_⟩
  · rw [at?_clear] at hat
    by_cases hgone : isBelow top loc = true
    · rw [if_pos hgone] at hat
      cases hat
    · rw [if_neg hgone] at hat
      exact h.noLink loc target hat
  · rw [at?_clear] at hat ⊢
    by_cases hgone : isBelow top (loc ++ [name]) = true
    · rw [if_pos hgone] at hat
      exact absurd rfl hat
    · rw [if_neg hgone] at hat
      have hstays : ¬ isBelow top loc = true := by
        intro hbelow
        obtain ⟨hin, -⟩ := Bool.and_eq_true_iff.1 hbelow
        refine hgone (Bool.and_eq_true_iff.2 ⟨?_, bne_iff_ne.2 ?_⟩)
        · exact isWithin_iff.2 ((isWithin_iff.1 hin).trans (List.prefix_append loc [name]))
        · rintro rfl
          have hlength := (isWithin_iff.1 hin).length_le
          rw [List.length_append] at hlength
          exact absurd hlength (Nat.not_succ_le_self _)
      rw [if_neg hstays]
      exact h.inDir loc name hat

theorem sheds_clear (t : FileTree) (top : Location) : Sheds t (t.clear top) := by
  intro loc node hat
  rw [at?_clear] at hat
  by_cases hbelow : isBelow top loc = true
  · rw [if_pos hbelow] at hat
    cases hat
  · rwa [if_neg hbelow] at hat

/-- Nothing is left below what has been cleared. -/
theorem hasChildren_clear (t : FileTree) (top : Location) :
    (t.clear top).hasChildren top = false := by
  have hnone : ((t.clear top).nodes.toList.filter fun e => isBelow top e.1) = [] := by
    show ((t.nodes.toList.filter fun e => !isBelow top e.1).filter fun e => isBelow top e.1) = []
    rw [List.filter_filter]
    exact List.filter_eq_nil_iff.2 fun e _ => by cases isBelow top e.1 <;> decide
  rw [hasChildren, below, hnone]
  rfl

/-- What a path leads to after the tree has lost something, it led to before. -/
theorem Sheds.pathExists {t t' : FileTree} (h : Sheds t t') {p : Path}
    (hgone : t.pathExists p = false) : t'.pathExists p = false := by
  rw [FileTree.pathExists] at hgone ⊢
  cases hstat : t'.stat p with
  | error fault => rfl
  | ok node =>
      rw [h.stat hstat] at hgone
      cases hgone

/-- A path that ends in a name spells a location below the root. -/
theorem place_ne_nil_of_endsInName {p : Path} (h : p.endsInName = true) : p.place ≠ [] := by
  rw [Path.endsInName, Path.lastStep?] at h
  cases hlast : p.trimmed.steps.getLast? with
  | none => rw [hlast] at h; cases h
  | some step =>
      rw [hlast] at h
      cases step with
      | down name =>
          obtain ⟨front, hfront⟩ := List.getLast?_eq_some_iff.1 hlast
          rw [← Path.place_trimmed, Path.place_of_concat hfront]
          exact List.append_ne_nil_of_right_ne_nil _ (List.cons_ne_nil name [])
      | here | up | slash => cases h

/-- What is removed at its place is gone. -/
theorem Plain.pathExists_remove (h : t.Plain) {p : Path} (hplace : p.place ≠ []) :
    (t.remove p.place).pathExists p = false := by
  rw [pathExists]
  cases hstat : (t.remove p.place).stat p with
  | error fault => rfl
  | ok node =>
      obtain ⟨loc, hleads, hat⟩ := stat_eq_ok hstat
      obtain rfl := ((h.remove_all p.place).resolve_eq_ok hleads).1
      rw [FileTree.at?_remove, if_pos ⟨isWithin_self _, hplace⟩] at hat
      cases hat

/-- An empty directory is removed by a path that ends in a name. -/
theorem Plain.removeDir_empty (h : t.Plain) {p : Path} (hdir : t.stat p = .ok .dir)
    (hempty : t.hasChildren p.place = false) (hname : p.endsInName = true) :
    t.removeDir p = .ok (t.remove p.place) := by
  obtain ⟨loc, hleads, hat⟩ := stat_eq_ok hdir
  obtain ⟨-, hentry, hlook⟩ := h.entry_of_target hleads
  obtain rfl := (h.resolve_eq_ok hleads).1
  refine Outcome.bind_eq_ok.2 ⟨p.place, hentry, ?_⟩
  rw [Path.endsInName] at hname
  cases hlast : p.lastStep? with
  | none => rw [hlast] at hname; cases hname
  | some step =>
      rw [hlast] at hname
      cases step with
      | down name =>
          refine Outcome.bind_eq_ok.2 ⟨some .dir, hlook.trans (congrArg _ hat), ?_⟩
          dsimp only
          rw [hempty, if_neg Bool.false_ne_true]
      | here | up | slash => cases hname

/-- Any other path that names an entry is refused. -/
theorem removeDir_unnamed {p : Path} {loc : Location} (hentry : t.entryAt p = .ok loc)
    (hname : p.endsInName = false) :
    ∃ fault, t.removeDir p = .error fault ∧ fault ≠ .notFound := by
  rw [Path.endsInName] at hname
  rw [removeDir, hentry]
  cases hlast : p.lastStep? with
  | none => exact ⟨_, rfl, by decide⟩
  | some step =>
      rw [hlast] at hname
      cases step with
      | down name => cases hname
      | here | up | slash => exact ⟨_, rfl, by decide⟩

/-- **A directory that is removed is gone**, as far as its path tells. Only a path that does not
    end in a name may still lead to it, and it then is empty. -/
theorem Plain.removeDirAll_gone (h : t.Plain) {p : Path} (hdir : t.stat p = .ok .dir) :
    (t.removeDirAll p).2.Plain
      ∧ ((t.removeDirAll p).2.pathExists p = false
        ∨ (p.endsInName = false ∧ (t.removeDirAll p).2.stat p = .ok .dir
          ∧ (t.removeDirAll p).2.hasChildren p.place = false)) := by
  obtain ⟨loc, hleads, hat⟩ := stat_eq_ok hdir
  obtain ⟨hentry, -, hlook⟩ := h.entry_of_target hleads
  obtain rfl := (h.resolve_eq_ok hleads).1
  have hclear := h.clear p.place
  have hempty := hasChildren_clear t p.place
  rw [removeDirAll, hentry]
  dsimp only
  rw [hlook, hat]
  dsimp only
  cases hstat : (t.clear p.place).stat p with
  | error fault =>
      -- the path went through a directory that is no longer there
      have hgone : (t.clear p.place).pathExists p = false := by rw [pathExists, hstat]
      cases hremove : (t.clear p.place).removeDir p with
      | error f => cases f <;> exact ⟨hclear, .inl hgone⟩
      | ok u =>
          obtain ⟨loc', -, rfl⟩ := removeDir_eq_ok hremove
          exact ⟨hclear.remove_all loc', .inl ((sheds_remove _ loc').pathExists hgone)⟩
  | ok node =>
      obtain rfl : node = .dir :=
        Except.ok.inj (((sheds_clear t p.place).stat hstat).symm.trans hdir)
      cases hname : p.endsInName with
      | true =>
          rw [hclear.removeDir_empty hstat hempty hname]
          exact ⟨hclear.remove_all p.place,
            .inl (hclear.pathExists_remove (place_ne_nil_of_endsInName hname))⟩
      | false =>
          obtain ⟨_, hleads', -⟩ := stat_eq_ok hstat
          obtain ⟨fault, hrefused, hfault⟩ :=
            removeDir_unnamed (hclear.entry_of_target hleads').2.1 hname
          rw [hrefused]
          cases fault with
          | notFound => exact absurd rfl hfault
          | _ => exact ⟨hclear, .inr ⟨rfl, hstat, hempty⟩⟩

end Nomenclator.Files.FileTree
