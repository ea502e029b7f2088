import Nomenclator.Proofs.Files.Emptying

/-! # Operations by paths without `..`

    In a plain tree an operation changes what is at the places of its paths.  If they
    hold no `..`, then the directories that it creates or empties on the way are above
    or below these places too:

    * creating directories changes the tree above the place (`Plain.createDirAll_above`);
    * removing a directory with all that is in it changes the tree from the place on,
      and leaves nothing below it (`Plain.removeDirAll_below`);
    * the files below a path are those below its place (`Plain.mem_filesBelow`). -/

namespace Nomenclator.Files.FileTree

-- ── Walks that go down ───────────────────────────────────────────────────────

/-- A walk goes down to a directory if no name on its way is too long. -/
theorem Plain.goes_dir {t : FileTree} (h : t.Plain) {base : Location} {steps : List Step}
    (hup : .up ∉ steps) (hshort : ∀ name, .down name ∈ steps → isTooLong name = false)
    (hdir : t.at? (steps.foldl Step.go base) = some .dir) :
    t.Goes .target base steps (.arrive (steps.foldl Step.go base)) := by
  induction steps generalizing base with
  | nil => exact .done
  | cons step later ih =>
      rw [List.mem_cons, not_or] at hup
      have hrest := fun name hmem => hshort name (List.mem_cons_of_mem step hmem)
      cases step with
      | here => exact .here (ih hup.2 hrest hdir)
      | slash => exact .slash (ih hup.2 hrest hdir)
      | up => exact absurd rfl hup.1
      | down name =>
          have hlook := looksUp_target later (hshort name List.mem_cons_self)
          refine .dir hlook ?_ (ih hup.2 hrest hdir)
          have habove := prefix_foldl_go hup.2 (base ++ [name])
          rcases h.dir_of_prefix habove fun hnone => nomatch hdir.symm.trans hnone with heq | hhere
          · rw [heq]
            exact hdir
          · exact hhere

/-- A path that leads below the root is relative. -/
theorem relative_of_place {t : FileTree} (h : t.Plain) {ending : Ending} {p : Path}
    {loc : Location} (hleads : t.resolve ending p = .ok loc) (hplace : p.place ≠ []) :
    p.isAbsolute = false := by
  refine Bool.eq_false_iff.2 fun habsolute => hplace ?_
  obtain ⟨later, hsteps⟩ : ∃ later, p.steps = .up :: later := by
    rw [Path.steps, habsolute]
    exact ⟨_, rfl⟩
  have hwalk := (resolve_eq_ok_iff.1 hleads).2
  rw [hsteps] at hwalk
  rw [← (h.resolve_eq_ok hleads).1]
  exact hwalk.of_root.2

theorem Plain.entryAt_place {t : FileTree} (h : t.Plain) {p : Path} {loc : Location}
    (hentry : t.entryAt p = .ok loc) : loc = p.place := by
  obtain ⟨_, -, hentry⟩ := Outcome.bind_eq_ok.1 hentry
  rw [(h.resolve_eq_ok hentry).1, Path.place_trimmed]

/-- What a path without `..` leads to, it leads to wherever that is in its place. -/
theorem Plain.stat_of_forward {t u : FileTree} (ht : t.Plain) (hu : u.Plain) {p : Path}
    (hp : p.Forward) (hplace : p.place ≠ []) {node : Node} (hstat : t.stat p = .ok node)
    (hat : u.at? p.place = some node) : u.stat p = .ok node := by
  obtain ⟨loc, hloc, -⟩ := stat_eq_ok hstat
  exact ht.stat_of_descends hu (hp.descends (relative_of_place ht hloc hplace)) hstat hat

/-- Something is not in the place of a path without `..` that spells another one. -/
theorem Plain.samePlace_forward {t : FileTree} (h : t.Plain) {p q : Path} (hq : q.Forward)
    {node : Node} (hstat : t.stat p = .ok node) (hne : p.place ≠ q.place) :
    t.samePlace p q = false := by
  have hcanonical : ∀ {p : Path} {loc : Location}, t.canonicalize p = .ok loc → loc = p.place := by
    intro p loc hloc
    obtain ⟨found, hfound, hloc⟩ := Outcome.bind_eq_ok.1 hloc
    obtain rfl := (h.resolve_eq_ok hfound).1
    cases hat : t.at? p.place with
    | none => rw [hat] at hloc; cases hloc
    | some node => rw [hat] at hloc; exact (Except.ok.inj hloc).symm
  have hp : t.identity? p = some p.place := by
    obtain ⟨loc, hloc, hat⟩ := stat_eq_ok hstat
    obtain rfl := (h.resolve_eq_ok hloc).1
    have hfound : t.canonicalize p = .ok p.place :=
      Outcome.bind_eq_ok.2 ⟨_, hloc, by rw [hat]⟩
    rw [identity?, hfound]
  have hidentity : ∀ loc, t.identity? q = some loc → loc = q.place := by
    intro loc hloc
    rw [identity?] at hloc
    cases hcase : t.canonicalize q with
    | ok found =>
        rw [hcase] at hloc
        exact (Option.some.inj hloc).symm.trans (hcanonical hcase)
    | error f =>
        rw [hcase] at hloc
        obtain ⟨name, hname, hloc⟩ := Option.bind_eq_some_iff.1 hloc
        obtain ⟨parent, hparent⟩ : ∃ parent, q.parent? = some parent := by
          rw [Path.fileName?] at hname
          rw [Path.parent?]
          cases hlast : q.lastPiece? with
          | none => rw [hlast] at hname; cases hname
          | some last => exact ⟨_, rfl⟩
        obtain ⟨-, -, hplace⟩ := hq.parent hparent
        rw [hparent] at hloc
        dsimp only at hloc
        -- the empty path and a dot have one place
        have hdot : (if parent.text.isEmpty then Path.mk "." else parent).place = parent.place := by
          by_cases hempty : parent.text.isEmpty = true
          · rw [if_pos hempty,
              show parent = ⟨""⟩ from congrArg Path.mk (String.isEmpty_iff.1 hempty)]
            decide
          · rw [if_neg hempty]
        generalize (if parent.text.isEmpty then Path.mk "." else parent) = above at hdot hloc
        cases hcase : t.canonicalize above with
        | error f => rw [hcase] at hloc; cases hloc
        | ok found =>
            rw [hcase] at hloc
            rw [← Option.some.inj hloc, hcanonical hcase, hdot, hplace name hname]
  rw [samePlace, hp]
  cases hcase : t.identity? q with
  | some loc =>
      rw [hidentity loc hcase]
      exact beq_eq_false_iff_ne.2 hne
  | none => exact Bool.eq_false_iff.2 fun hsame => hne (Path.place_of_sameAs hsame)

-- ── Directories that come ────────────────────────────────────────────────────

theorem Plain.createDirs_above {t : FileTree} (h : t.Plain) {paths : List Path} {top : Location}
    (hpaths : ∀ p ∈ paths, p.place <+: top) {loc : Location} (hloc : ¬ loc <+: top) :
    (t.createDirs paths).2.at? loc = t.at? loc := by
  have hcreate : ∀ {u u' : FileTree} {p : Path}, u.Plain → p.place <+: top →
      u.createDir p = .ok u' → u'.at? loc = u.at? loc := by
    intro u u' p hu hp hok
    obtain ⟨at', hentry, -, rfl⟩ := createDir_eq_ok hok
    obtain rfl := hu.entryAt_place hentry
    rw [at?_set, if_neg]
    rintro ⟨rfl, -⟩
    exact hloc hp
  induction paths generalizing t with
  | nil => rfl
  | cons p shorter ih =>
      have hp := hpaths p List.mem_cons_self
      rw [FileTree.createDirs]
      cases hfirst : t.createDir p with
      | ok u => exact hcreate h hp hfirst
      | error f =>
          cases f with
          | notFound =>
              have hshorter := ih h fun q hq => hpaths q (List.mem_cons_of_mem _ hq)
              have hplain := h.createDirs shorter
              cases hrest : t.createDirs shorter with
              | mk result u =>
                  rw [hrest] at hshorter hplain
                  cases result with
                  | error f => exact hshorter
                  | ok _ =>
                      cases hagain : u.createDir p with
                      | ok v =>
                          have hsame := hcreate hplain hp hagain
                          simpa only [hagain] using hsame.trans hshorter
                      | error f => simpa only [hagain] using hshorter
          | _ => rfl

/-- Creating a directory with those above it changes what is at its place and above. -/
theorem Plain.createDirAll_above {t : FileTree} (h : t.Plain) {p : Path} (hp : p.Forward)
    {loc : Location} (hloc : ¬ loc <+: p.place) : (t.createDirAll p).2.at? loc = t.at? loc :=
  h.createDirs_above (fun _ hq => hp.above hq) hloc

-- ── Directories that go ──────────────────────────────────────────────────────

theorem isBelow_iff {top loc : Location} : isBelow top loc = true ↔ top <+: loc ∧ loc ≠ top := by
  rw [isBelow, Bool.and_eq_true, isWithin_iff, bne_iff_ne, ne_comm]

/-- **Removing a directory** changes nothing outside, and leaves nothing below its place. -/
theorem Plain.removeDirAll_below {t : FileTree} (h : t.Plain) {p : Path}
    (hplace : p.place ≠ []) (hdir : t.stat p = .ok .dir) :
    (t.removeDirAll p).2.Plain
      ∧ (∀ loc, ¬ p.place <+: loc → (t.removeDirAll p).2.at? loc = t.at? loc)
      ∧ ∀ loc, p.place <+: loc → loc ≠ p.place → (t.removeDirAll p).2.at? loc = none := by
  obtain ⟨loc, hleads, hat⟩ := stat_eq_ok hdir
  obtain ⟨hresolve, -, hlook⟩ := h.entry_of_target hleads
  obtain rfl := (h.resolve_eq_ok hleads).1
  rw [hat] at hlook
  rw [removeDirAll, hresolve]
  dsimp only
  rw [hlook]
  dsimp only
  have hclear := h.clear p.place
  have houtside : ∀ loc, ¬ p.place <+: loc → (t.clear p.place).at? loc = t.at? loc :=
    fun loc hloc => by rw [at?_clear, if_neg fun hbelow => hloc (isBelow_iff.1 hbelow).1]
  have hinside : ∀ loc, p.place <+: loc → loc ≠ p.place → (t.clear p.place).at? loc = none :=
    fun loc hloc hne => by rw [at?_clear, if_pos (isBelow_iff.2 ⟨hloc, hne⟩)]
  cases hremove : (t.clear p.place).removeDir p with
  | error f => cases f <;> exact ⟨hclear, houtside, hinside⟩
  | ok u =>
      obtain ⟨loc', hloc', rfl⟩ := removeDir_eq_ok hremove
      obtain rfl := hclear.entryAt_place hloc'
      refine ⟨hclear.remove_all p.place, fun loc hloc => ?_, fun loc hloc hne => ?_⟩
      · rw [FileTree.at?_remove, if_neg fun hin => hloc (isWithin_iff.1 hin.1)]
        exact houtside loc hloc
      · have hnil : loc ≠ [] := by
          rintro rfl
          exact hplace (List.prefix_nil.1 hloc)
        rw [FileTree.at?_remove, if_pos ⟨isWithin_iff.2 hloc, hnil⟩]

theorem stat_of_isDir {t : FileTree} {p : Path} (h : t.isDir p = true) : t.stat p = .ok .dir := by
  rw [isDir] at h
  split at h
  next hstat => exact hstat
  next => cases h

/-- Where a path leads to something, the path above it leads to a directory. -/
theorem Plain.stat_above {t : FileTree} (h : t.Plain) {p : Path} (hp : p.Forward)
    (hplace : p.place ≠ []) {rel : List String} (hne : rel ≠ []) (hnames : ∀ name ∈ rel, IsName name)
    {node : Node} (hstat : t.stat (p.join ("/".intercalate rel)) = .ok node) :
    t.stat p = .ok .dir := by
  obtain ⟨loc, hleads, hat⟩ := stat_eq_ok hstat
  obtain rfl := (h.resolve_eq_ok hleads).1
  obtain ⟨hforward, hjoin⟩ := hp.join hne hnames
  have hdir : t.at? p.place = some .dir :=
    h.dir_above (List.map_eq_nil_iff.not.2 hne) (by rw [← hjoin, hat]; exact Option.some_ne_none _)
  have htext : p.text ≠ "" := by
    intro hempty
    refine hplace ?_
    rw [show p = ⟨""⟩ from congrArg Path.mk hempty]
    decide
  obtain ⟨more, hmore⟩ := p.join_text (Path.head_intercalate hne hnames)
  have hrelative := relative_of_place h hleads
    (by rw [hjoin]; exact List.append_ne_nil_of_left_ne_nil hplace _)
  obtain ⟨_, hcheck, hwalk⟩ := Outcome.bind_eq_ok.1 hleads
  rw [h.walkLinks_eq_ok] at hwalk
  have hshort := hwalk.short fun _ hmem => absurd hmem List.not_mem_nil
  have hrelative' : p.isAbsolute = false := by
    rw [Path.isAbsolute, hmore, String.toList_append,
      List.head?_append_of_ne_nil _ fun hnil => htext (String.toList_eq_nil_iff.1 hnil)]
      at hrelative
    exact hrelative
  have hchecked : checkText ⟨p.text⟩ = .ok () :=
    checkText_of_append htext (by rw [← hmore]; exact hcheck)
  refine stat_of_resolve (Outcome.bind_eq_ok.2 ⟨(), hchecked, ?_⟩) hdir
  · refine h.walkLinks_eq_ok.2 (h.goes_dir (hp.descends hrelative') ?_ hdir)
    intro name hmem
    refine hshort name ?_
    rw [hjoin, hp.place_eq]
    exact List.mem_append_left _ (hp.mem_steps.1 hmem)

-- ── Files below a path ───────────────────────────────────────────────────────

/-- The files below a path, by their locations. -/
theorem Plain.mem_filesBelow {t : FileTree} (h : t.Plain) {p : Path}
    {files : List (Location × Content)} (hfiles : t.filesBelow p = .ok files) {rel : Location}
    {content : Content} :
    (rel, content) ∈ files ↔ rel ≠ [] ∧ t.at? (p.place ++ rel) = some (.file content) := by
  obtain ⟨loc, hleads, hrest⟩ := Outcome.bind_eq_ok.1 hfiles
  obtain ⟨rfl, -⟩ := h.resolve_eq_ok hleads
  have hthere : t.at? p.place ≠ none := by
    rintro hnone
    rw [hnone] at hrest
    cases hrest
  rw [filesBelow_eq hleads hthere] at hfiles
  obtain rfl := Except.ok.inj hfiles
  rw [List.mem_filterMap]
  constructor
  · rintro ⟨⟨loc, node⟩, hmem, hread⟩
    cases node with
    | dir => cases hread
    | link target => cases hread
    | file other =>
        rw [fileBelow?] at hread
        dsimp only at hread
        by_cases hbelow : isBelow p.place loc = true
        · rw [if_pos hbelow] at hread
          obtain ⟨⟨rest, rfl⟩, hne⟩ := isBelow_iff.1 hbelow
          rw [List.drop_left] at hread
          obtain ⟨rfl, rfl⟩ := Prod.mk.inj (Option.some.inj hread)
          have hrel : rest ≠ [] := fun hnil => hne (by rw [hnil, List.append_nil])
          refine ⟨hrel, ?_⟩
          rw [at?_of_ne_nil _ (List.append_ne_nil_of_right_ne_nil _ hrel)]
          exact SortedMap.get?_eq_some_iff.2 hmem
        · rw [if_neg hbelow] at hread
          cases hread
  · rintro ⟨hrel, hat⟩
    rw [at?_of_ne_nil _ (List.append_ne_nil_of_right_ne_nil _ hrel)] at hat
    refine ⟨(p.place ++ rel, .file content), SortedMap.get?_eq_some_iff.1 hat, ?_⟩
    rw [fileBelow?]
    dsimp only
    rw [if_pos, List.drop_left]
    exact isBelow_iff.2 ⟨List.prefix_append _ _, fun heq => hrel (List.append_right_eq_self.1 heq)⟩

/-- No file is listed twice. -/
theorem filesBelow_nodup {t : FileTree} {p : Path} {files : List (Location × Content)}
    (hfiles : t.filesBelow p = .ok files) : (files.map Prod.fst).Nodup := by
  obtain ⟨loc, hleads, hrest⟩ := Outcome.bind_eq_ok.1 hfiles
  have hthere : t.at? loc ≠ none := by
    rintro hnone
    rw [hnone] at hrest
    cases hrest
  rw [filesBelow_eq hleads hthere] at hfiles
  obtain rfl := Except.ok.inj hfiles
  refine List.pairwise_map.2 (List.Pairwise.filterMap _ ?_ (List.pairwise_map.1 t.nodes.keys_nodup))
  rintro ⟨l, node⟩ ⟨l', node'⟩ hne file hfile file' hfile' heq
  have hread : ∀ {l node file}, fileBelow? loc (l, node) = some file → l = loc ++ file.1 := by
    intro l node file hfile
    cases node with
    | dir => cases hfile
    | link target => cases hfile
    | file content =>
        rw [fileBelow?] at hfile
        dsimp only at hfile
        by_cases hbelow : isBelow loc l = true
        · rw [if_pos hbelow] at hfile
          obtain ⟨⟨rest, rfl⟩, -⟩ := isBelow_iff.1 hbelow
          rw [List.drop_left] at hfile
          rw [← Option.some.inj hfile]
        · rw [if_neg hbelow] at hfile
          cases hfile
  exact hne (by rw [hread hfile, hread hfile', heq])

end Nomenclator.Files.FileTree
