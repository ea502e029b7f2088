import Nomenclator.Proofs.Files.Trail

/-! # Removing files — what is gone stays gone

    A path that leads to a file names a file or a link, since a directory cannot be
    in the place of its last name (`entry_of_stat`).  So it can be removed, and
    afterwards the path leads to no file: its walk would have to pass the entry
    that is gone.  Removing something else never brings a file back, since a tree
    that has lost something leads nowhere where it did not lead before
    (`Sheds.stat`). -/

namespace Nomenclator.Files.FileTree

-- ── Walks to files ───────────────────────────────────────────────────────────

/-- The steps end in a name, and a walk that does not look it up arrives at its location. -/
def Enters (walk : Walk) (steps : List Step) (entry : Location) : Prop :=
  ∃ name, steps.getLast? = some (.down name) ∧ isTooLong name = false
    ∧ entry.getLast? = some name ∧ walk = .arrive entry

theorem Enters.cons {walk : Walk} {step : Step} {steps : List Step} {entry : Location}
    (h : Enters walk steps entry) : Enters walk (step :: steps) entry := by
  obtain ⟨name, hlast, hname⟩ := h
  exact ⟨name, by rw [List.getLast?_cons, hlast]; rfl, hname⟩

/-- What a walk through the last name has to do with one that stops before it: the first
    arrives at a directory or where the second does, follows a link that is there, or follows
    the same link on the way. -/
def Matches (t : FileTree) (steps : List Step) (stopped : Walk) : Walk → Prop
  | .arrive loc => t.at? loc = some .dir ∨ Enters stopped steps loc
  | .fault _ => True
  | .follow base rest => t.DirsTo base
    ∧ ((∃ entry target, Enters stopped steps entry ∧ t.at? entry = some (.link target))
      ∨ (stopped = .follow base rest ∧ rest.getLast? = steps.getLast?))

theorem Matches.cons {t : FileTree} {step : Step} {steps : List Step} {stopped walk : Walk}
    (h : Matches t steps stopped walk) (hne : steps ≠ [] ∨ ∃ loc, walk = .arrive loc) :
    Matches t (step :: steps) stopped walk := by
  cases walk with
  | arrive loc => exact h.imp_right Enters.cons
  | fault f => exact trivial
  | follow base rest =>
      refine ⟨h.1, h.2.imp ?_ ?_⟩
      · rintro ⟨entry, target, henters, hlink⟩
        exact ⟨entry, target, henters.cons, hlink⟩
      · rintro ⟨hstopped, hlast⟩
        refine ⟨hstopped, ?_⟩
        rcases hne with hne | ⟨loc, hwalk⟩
        · obtain ⟨last, hsteps⟩ := Option.ne_none_iff_exists'.1 (mt List.getLast?_eq_none_iff.1 hne)
          rw [hlast, List.getLast?_cons, hsteps]
          rfl
        · exact nomatch hwalk

theorem walk_matches {t : FileTree} {base : Location} (hbase : t.DirsTo base) (steps : List Step) :
    Matches t steps (t.walk .entry base steps) (t.walk .target base steps) := by
  rcases t.goes_or_fault .target base steps with ⟨f, hfault⟩ | hgoes
  · rw [hfault]
    exact trivial
  generalize t.walk .target base steps = walk at hgoes ⊢
  -- after the last step the walk is where it was
  have hmore : ∀ {base : Location} {later : List Step} {walk : Walk},
      t.Goes .target base later walk → later ≠ [] ∨ ∃ loc, walk = .arrive loc := by
    intro base later walk rest
    refine (Classical.em (later = [])).symm.imp_right ?_
    rintro rfl
    exact ⟨base, rest.walk.symm⟩
  -- the other walk only stops before the last name
  have hentry : ∀ {name : Name} {later : List Step}, LooksUp .target name later → later ≠ [] →
      LooksUp .entry name later :=
    fun hlook hlater => looksUp_of_ne_nil hlater Ending.noConfusion hlook.isTooLong_eq
  have henters : ∀ {base : Location} {name : Name}, LooksUp .target name [] →
      Enters (t.walk .entry base [.down name]) [.down name] (base ++ [name]) :=
    fun hlook => ⟨_, rfl, hlook.isTooLong_eq, List.getLast?_concat, rfl⟩
  induction hgoes with
  | done => exact .inl hbase.self
  | here rest ih | slash rest ih => exact (ih hbase).cons (hmore rest)
  | root => exact .inl rfl
  | up hne rest ih =>
      rw [walk_up t .entry hne]
      exact (ih hbase.dropLast).cons (hmore rest)
  | entry hending => cases hending
  | stop hlook _ => exact .inr (henters hlook)
  | @dir base name later walk hlook hdir rest ih =>
      by_cases hlater : later = []
      · subst hlater
        rw [← rest.walk]
        exact .inl hdir
      · have hrest := ih (hbase.down hdir)
        rw [(hentry hlook hlater).walk, hdir]
        exact hrest.cons (.inl hlater)
  | @link base name later target hlook hlink =>
      refine ⟨hbase.follow _, ?_⟩
      by_cases hlater : later = []
      · subst hlater
        exact .inl ⟨_, target, henters hlook, hlink⟩
      · refine .inr ⟨(Goes.link (hentry hlook hlater) hlink).walk, ?_⟩
        rw [List.getLast?_append_of_ne_nil _ hlater, List.getLast?_cons_of_ne_nil hlater]

/-- The steps name a file or a link, by the last of them. -/
def NamesEntry (t : FileTree) (links : Nat) (base : Location) (steps : List Step) : Prop :=
  ∃ name entry there, steps.getLast? = some (.down name)
    ∧ t.walkLinks .entry links base steps = .ok entry
    ∧ t.lookUp entry = .ok (some there) ∧ there ≠ .dir

theorem Enters.namesEntry {t : FileTree} {base entry : Location} {steps : List Step}
    (h : Enters (t.walk .entry base steps) steps entry) {there : Node}
    (hat : t.at? entry = some there) (hdir : there ≠ .dir) (links : Nat) :
    NamesEntry t links base steps := by
  obtain ⟨name, hlast, hlong, hname, hstop⟩ := h
  refine ⟨name, entry, there, hlast, ?_, ?_, hdir⟩
  · cases links with
    | zero => rw [walkLinks, hstop]
    | succ links => rw [walkLinks, hstop]
  · simp only [lookUp, hname, hlong, hat, Bool.false_eq_true, if_false]

/-- A walk that arrives at something that is no directory has an entry for its last step. -/
theorem namesEntry_of_walkLinks {t : FileTree} {links : Nat} {base loc : Location}
    {steps : List Step} {node : Node} (hbase : t.DirsTo base)
    (h : t.walkLinks .target links base steps = .ok loc) (hat : t.at? loc = some node)
    (hnode : node ≠ .dir) : NamesEntry t links base steps := by
  have hdir : ¬ t.at? loc = some .dir := fun hdir =>
    hnode (Option.some.inj (hat.symm.trans hdir))
  rw [leads_iff] at h
  induction h with
  | @arrive links base steps loc hgoes =>
      have hmatch := walk_matches hbase steps
      rw [hgoes.walk] at hmatch
      exact (hmatch.resolve_left hdir).namesEntry hat hnode links
  | @follow links base base' steps rest loc hgoes _ ih =>
      have hmatch := walk_matches hbase steps
      rw [hgoes.walk] at hmatch
      obtain ⟨hbase', ⟨entry, target, henters, hlink⟩ | ⟨hstop, hlast⟩⟩ := hmatch
      · exact henters.namesEntry hlink Node.noConfusion (links + 1)
      · obtain ⟨name, entry, there, hname, hentry, hthere⟩ := ih hbase' hat hdir
        refine ⟨name, entry, there, hlast ▸ hname, ?_, hthere⟩
        rw [walkLinks, hstop]
        exact hentry

theorem endsInSlash_of_getLast? {p : Path} {name : Name}
    (h : p.steps.getLast? = some (.down name)) : p.endsInSlash = false := by
  cases hslash : p.endsInSlash with
  | false => rfl
  | true =>
      rw [Path.steps, hslash, if_pos rfl, List.getLast?_concat] at h
      exact nomatch h

theorem trimmed_of_endsInSlash {p : Path} (h : p.endsInSlash = false) : p.trimmed = p := by
  have htext : p.text.toList.reverse.dropWhile (· == '/') = p.text.toList.reverse := by
    rw [Path.endsInSlash, ← List.head?_reverse] at h
    cases hchars : p.text.toList.reverse with
    | nil => rfl
    | cons c rest =>
        rw [hchars, List.head?_cons] at h
        rw [List.dropWhile_cons_of_neg]
        intro hc
        rw [eq_of_beq hc] at h
        exact nomatch h
  rw [Path.trimmed, htext]
  cases hchars : p.text.toList.reverse with
  | nil => rfl
  | cons c rest =>
      dsimp only
      rw [← hchars, List.reverse_reverse, String.ofList_toList]

/-- A path that leads to a file names a file or a link, and no slash is after it. -/
theorem entry_of_stat {t : FileTree} {p : Path} {content : Content}
    (h : t.stat p = .ok (.file content)) :
    ∃ entry there, t.entryAt p = .ok entry ∧ t.lookUp entry = .ok (some there) ∧ there ≠ .dir
      ∧ p.endsInSlash = false := by
  obtain ⟨loc, hloc, hat⟩ := stat_eq_ok h
  obtain ⟨_, htext, hwalk⟩ := Outcome.bind_eq_ok.1 hloc
  obtain ⟨name, entry, there, hlast, hentry, hlook, hdir⟩ :=
    namesEntry_of_walkLinks t.dirsTo_root hwalk hat fun hdir => nomatch hdir
  have hslash := endsInSlash_of_getLast? hlast
  refine ⟨entry, there, ?_, hlook, hdir, hslash⟩
  refine Outcome.bind_eq_ok.2 ⟨_, htext, Outcome.bind_eq_ok.2 ⟨(), ?_⟩⟩
  rw [trimmed_of_endsInSlash hslash]
  exact ⟨htext, hentry⟩

/-- An entry that can be looked up and is no directory can be removed. -/
theorem removeFile_of_lookUp {t : FileTree} {p : Path} {entry : Location} {there : Node}
    (hentry : t.entryAt p = .ok entry) (hlook : t.lookUp entry = .ok (some there))
    (hdir : there ≠ .dir) (hslash : p.endsInSlash = false) :
    t.removeFile p = .ok (t.remove entry) := by
  refine Outcome.bind_eq_ok.2 ⟨entry, hentry, Outcome.bind_eq_ok.2 ⟨some there, hlook, ?_⟩⟩
  cases there with
  | dir => exact absurd rfl hdir
  | file _ => rw [hslash]; rfl
  | link _ => rw [hslash]; rfl

/-- A path that leads to a file can be removed. -/
theorem removeFile_of_isFile {t : FileTree} {p : Path} (h : t.isFile p = true) :
    ∃ t', t.removeFile p = .ok t' := by
  obtain ⟨content, hstat⟩ := stat_of_isFile h
  obtain ⟨entry, there, hentry, hlook, hdir, hslash⟩ := entry_of_stat hstat
  exact ⟨t.remove entry, removeFile_of_lookUp hentry hlook hdir hslash⟩

-- ── Trees that have lost something ───────────────────────────────────────────

/-- The second tree has nothing that the first does not have. -/
def Sheds (t t' : FileTree) : Prop :=
  ∀ loc node, t'.at? loc = some node → t.at? loc = some node

theorem Sheds.refl (t : FileTree) : Sheds t t := fun _ _ h => h

theorem Sheds.trans {t u v : FileTree} (htu : Sheds t u) (huv : Sheds u v) : Sheds t v :=
  fun loc node h => htu loc node (huv loc node h)

theorem sheds_remove (t : FileTree) (top : Location) : Sheds t (t.remove top) := by
  intro loc node h
  rw [at?_remove] at h
  by_cases hin : isWithin top loc = true ∧ loc ≠ []
  · rw [if_pos hin] at h
    exact nomatch h
  · rwa [if_neg hin] at h

theorem sheds_removeFile {t t' : FileTree} {p : Path} (h : t.removeFile p = .ok t') :
    Sheds t t' := by
  obtain ⟨loc, -, -, rfl⟩ := removeFile_eq_ok h
  exact sheds_remove t loc

/-- What a path leads to was there before. -/
theorem Sheds.stat {t t' : FileTree} (h : Sheds t t') {p : Path} {node : Node}
    (hstat : t'.stat p = .ok node) : t.stat p = .ok node :=
  stat_congr (fun l _ node hat => h l node hat) hstat

theorem Sheds.isFile {t t' : FileTree} (h : Sheds t t') {p : Path} (hfile : t.isFile p = false) :
    t'.isFile p = false := by
  refine Bool.eq_false_iff.2 fun hfile' => ?_
  obtain ⟨content, hstat⟩ := stat_of_isFile hfile'
  rw [FileTree.isFile, h.stat hstat] at hfile
  cases hfile

/-- Every file of the second tree is one of the first. -/
def BringsNoFile (t t' : FileTree) : Prop :=
  ∀ loc content, t'.at? loc = some (.file content) → t.at? loc = some (.file content)

theorem BringsNoFile.refl (t : FileTree) : BringsNoFile t t := fun _ _ h => h

theorem BringsNoFile.trans {t u v : FileTree} (htu : BringsNoFile t u) (huv : BringsNoFile u v) :
    BringsNoFile t v :=
  fun loc content h => htu loc content (huv loc content h)

theorem Sheds.bringsNoFile {t t' : FileTree} (h : Sheds t t') : BringsNoFile t t' :=
  fun loc _ hat => h loc _ hat

theorem Grows.bringsNoFile {t t' : FileTree} (h : Grows t t') : BringsNoFile t t' := by
  intro loc content hat
  rcases h loc with hsame | ⟨-, hdir⟩
  · exact hsame.symm.trans hat
  · exact nomatch hdir.symm.trans hat

/-- **What has been removed is gone.** -/
theorem isFile_of_removeFile {t t' : FileTree} {p : Path} (h : t.removeFile p = .ok t') :
    t'.isFile p = false := by
  obtain ⟨loc, hloc, hdir, rfl⟩ := removeFile_eq_ok h
  refine Bool.eq_false_iff.2 fun hfile => ?_
  obtain ⟨content, hstat⟩ := stat_of_isFile hfile
  obtain ⟨entry, there, hentry, hlook, -, -⟩ := entry_of_stat hstat
  -- the path would still name the entry that it named before
  have hsame : t.entryAt p = .ok entry :=
    entryAt_congr (fun l _ node hat => sheds_remove t loc l node hat) hentry
  obtain rfl : loc = entry := Except.ok.inj (hloc.symm.trans hsame)
  have hat := lookUp_eq_ok hlook
  rw [at?_remove] at hat
  by_cases hnil : loc = []
  · rw [hnil] at hdir
    exact hdir rfl
  · rw [if_pos ⟨isWithin_self loc, hnil⟩] at hat
    exact nomatch hat

end Nomenclator.Files.FileTree
