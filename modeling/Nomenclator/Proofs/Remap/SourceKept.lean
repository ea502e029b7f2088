import Nomenclator.Proofs.Files.Trail
import Nomenclator.Proofs.Remap.Act
import Nomenclator.Proofs.Remap.InputKept
import Nomenclator.Remap.Source

/-! # Remapping sources keeps its input when it fails

    A run discards its output, creates the directory of it, writes files, and after
    a failure discards the output once more.  In place, the input is moved aside
    first and moved back after a failure.  All of this acts on paths, and the only
    test is whether input and output are one place when the run starts.

    * **Sites** — the locations that a run may discard or write, planned ahead in the
      tree at its start and in the tree without the output;
    * **Closed** — what discarding and writing at sites preserves; a run preserves
      every such property, so what a run keeps is said once for all of them;
    * **Spares** — no site is at or above what the input depends on, nor inside the
      input.  A run does not check this itself, and the runs at the end lose their
      input. -/

namespace Nomenclator.Remap

open Files

-- ── Where a run works ────────────────────────────────────────────────────────

namespace SourceRemapper

/-- The locations that are removed or emptied when an output is discarded. -/
def discardSites (t : FileTree) (output : Path) : List Location :=
  (t.trailOf .entry output).ends ++ (t.entryTrail output).ends
    ++ (t.entryTrail (Sidecar.pathOf output)).ends

/-- The paths of the files in a directory, from its top, as they are shown. -/
def namesBelow (t : FileTree) (input : Path) : List String :=
  match t.filesBelow input with
  | .ok files => files.map fun e => e.1.lossy
  | .error _ => []

/-- The paths that are written: the output itself, or one path for each file of the input. -/
def writtenPaths (t : FileTree) (input output : Path) : List Path :=
  if t.isDir input then (namesBelow t input).map output.join else [output]

/-- All sites of a run. -/
def sites (t : FileTree) (input output : Path) : List Location :=
  discardSites t output ++ discardSites (Act.discarded t output) output
    ++ (writtenPaths t input output).flatMap fun p =>
        ((Act.discarded t output).trailOf .place p).ends

/-- The tree in which a run starts to write. -/
def prepared (t : FileTree) (output : Path) : FileTree :=
  Act.withParent (Act.discarded t output) output

theorem withParent_grows (t : FileTree) (path : Path) : t.Grows (Act.withParent t path) := by
  rw [Act.withParent]
  cases path.parent? with
  | none => exact FileTree.Grows.refl t
  | some parent => exact FileTree.createDirAll_grows t parent

-- ── What sites preserve ──────────────────────────────────────────────────────

/-- The property stays when something is discarded or written at one of the sites. -/
structure Closed (sites : List Location) (P : FileTree → Prop) : Prop where
  remove : ∀ t, ∀ site ∈ sites, P t → P (t.remove site)
  clear : ∀ t, ∀ site ∈ sites, P t → P (t.clear site)
  write : ∀ t, ∀ site ∈ sites, ∀ content, P t → P (t.set site (.file content))

/-- Apart from the sites, the second tree has what the first has, and perhaps directories that
    came. -/
def GrowsApart (sites : List Location) (t t' : FileTree) : Prop :=
  ∀ loc, Apart sites [loc] → t.GrowsAt t' loc

theorem GrowsApart.refl (sites : List Location) (t : FileTree) : GrowsApart sites t t :=
  fun loc _ => FileTree.Grows.refl t loc

theorem GrowsApart.at? {sites : List Location} {t t' : FileTree} (h : GrowsApart sites t t')
    {loc : Location} (hapart : Apart sites [loc]) {node : Node} (hnode : t.at? loc = some node) :
    t'.at? loc = some node := by
  rcases h loc hapart with hsame | ⟨hnone, -⟩
  · exact hsame.trans hnode
  · rw [hnode] at hnone
    exact nomatch hnone

theorem apart_singleton {sites locs : List Location} (h : Apart sites locs) {loc : Location}
    (hloc : loc ∈ locs) : Apart sites [loc] := by
  intro site hsite other hother
  rw [List.mem_singleton.1 hother]
  exact h site hsite loc hloc

theorem closed_growsApart (sites : List Location) (t : FileTree) :
    Closed sites (GrowsApart sites t) := by
  refine ⟨fun u site hsite h loc hapart => ?_, fun u site hsite h loc hapart => ?_,
    fun u site hsite content h loc hapart => ?_⟩ <;>
    have hout := hapart site hsite loc List.mem_cons_self
  · rw [FileTree.GrowsAt, FileTree.at?_remove, if_neg (by simp [hout])]
    exact h loc hapart
  · rw [FileTree.GrowsAt, FileTree.at?_clear, if_neg (by simp [FileTree.isBelow, hout])]
    exact h loc hapart
  · have hne : loc ≠ site := by
      rintro rfl
      rw [FileTree.isWithin_self] at hout
      cases hout
    rw [FileTree.GrowsAt, FileTree.at?_set, if_neg fun heq => hne heq.1]
    exact h loc hapart

theorem GrowsApart.grow {sites : List Location} {t u v : FileTree} (h : GrowsApart sites t u)
    (hgrows : u.Grows v) : GrowsApart sites t v :=
  fun loc hapart => (h loc hapart).trans (hgrows loc)

/-- No directory comes to a location by discarding or writing. -/
theorem closed_no_dir (sites : List Location) (loc : Location) :
    Closed sites fun t => t.at? loc ≠ some .dir := by
  refine ⟨fun t site _ h => ?_, fun t site _ h => ?_, fun t site _ content h => ?_⟩
  · rw [FileTree.at?_remove]
    split
    · exact fun hdir => nomatch hdir
    · exact h
  · rw [FileTree.at?_clear]
    split
    · exact fun hdir => nomatch hdir
    · exact h
  · rw [FileTree.at?_set]
    split
    · exact fun hdir => nomatch hdir
    · exact h

theorem Closed.and {sites : List Location} {P Q : FileTree → Prop} (hP : Closed sites P)
    (hQ : Closed sites Q) : Closed sites fun t => P t ∧ Q t :=
  ⟨fun t site hsite h => ⟨hP.remove t site hsite h.1, hQ.remove t site hsite h.2⟩,
    fun t site hsite h => ⟨hP.clear t site hsite h.1, hQ.clear t site hsite h.2⟩,
    fun t site hsite content h =>
      ⟨hP.write t site hsite content h.1, hQ.write t site hsite content h.2⟩⟩

section Steps

variable {sites : List Location} {P : FileTree → Prop} {plan t : FileTree}

theorem Closed.removeFile (hP : Closed sites P) (hplan : plan.HoldsTo t) {p : Path}
    (hsites : (plan.entryTrail p).ends ⊆ sites) (h : P t) {t' : FileTree}
    (hremove : t.removeFile p = .ok t') : P t' ∧ plan.HoldsTo t' := by
  obtain ⟨loc, hloc, -, rfl⟩ := FileTree.removeFile_eq_ok hremove
  exact ⟨hP.remove t loc (hsites (hplan.mem_ends_of_entryAt hloc)) h, hplan.remove loc⟩

theorem Closed.withoutOutput (hP : Closed sites P) (hplan : plan.HoldsTo t) {output : Path}
    (hsites : (plan.entryTrail output).ends ⊆ sites) (h : P t) :
    P (Act.withoutOutput t output) ∧ plan.HoldsTo (Act.withoutOutput t output) := by
  rw [Act.withoutOutput]
  by_cases hexists : t.pathExists output = true
  · rw [if_pos hexists]
    cases hremove : t.removeFile output with
    | ok t' => exact hP.removeFile hplan hsites h hremove
    | error f => exact ⟨h, hplan⟩
  · rw [if_neg hexists]
    exact ⟨h, hplan⟩

/-- Discarding an output works at its sites only, in every tree that holds to the plan. -/
theorem Closed.discarded (hP : Closed sites P) (hplan : plan.HoldsTo t) {output : Path}
    (hsites : discardSites plan output ⊆ sites) (h : P t) : P (Act.discarded t output) := by
  have hentry : (plan.trailOf .entry output).ends ⊆ sites := fun site hsite =>
    hsites (List.mem_append_left _ (List.mem_append_left _ hsite))
  have hnamed : (plan.entryTrail output).ends ⊆ sites := fun site hsite =>
    hsites (List.mem_append_left _ (List.mem_append_right _ hsite))
  have hsidecar : (plan.entryTrail (Sidecar.pathOf output)).ends ⊆ sites := fun site hsite =>
    hsites (List.mem_append_right _ hsite)
  rw [Act.discarded]
  by_cases hdir : t.isDir output = true
  · rw [if_pos hdir]
    rcases t.removeDirAll_cases output with hsame | ⟨loc, hloc, hremove | hclear | ⟨loc', hloc', hboth⟩⟩
    · rw [hsame]
      exact h
    · rw [hremove]
      exact hP.remove t loc (hentry (hplan.mem_ends_of_resolve hloc)) h
    · rw [hclear]
      exact hP.clear t loc (hentry (hplan.mem_ends_of_resolve hloc)) h
    · rw [hboth]
      refine hP.remove _ loc' (hnamed ((hplan.clear loc).mem_ends_of_entryAt hloc')) ?_
      exact hP.clear t loc (hentry (hplan.mem_ends_of_resolve hloc)) h
  · rw [if_neg hdir]
    -- what is left of the output, then its sidecar
    have hkept := hP.withoutOutput hplan hnamed h
    rw [Sidecar.discard]
    cases hremove : (Act.withoutOutput t output).removeFile (Sidecar.pathOf output) with
    | ok t' => exact (hP.removeFile hkept.2 hsidecar hkept.1 hremove).1
    | error f => exact hkept.1

/-- Writing a file works where its path leads to, in every tree that builds on the plan. -/
theorem leads_write (hP : Closed sites P) {p : Path} (hsites : (plan.trailOf .place p).ends ⊆ sites)
    (content : Content) :
    Act.Leads (ρ := SourceRequest) (fun t => plan.BuildsOn t ∧ P t)
      (Act.change p (·.write p content)) (fun t => plan.BuildsOn t ∧ P t) := by
  intro b hb
  rw [Act.change]
  rw [Act.run_get_bind]
  cases hwrite : b.files.write p content with
  | error f => exact hb
  | ok t' =>
      obtain ⟨loc, hloc, -, rfl⟩ := FileTree.write_eq_ok hwrite
      exact ⟨hb.1.write loc content,
        hP.write _ loc (hsites (hb.1.holdsTo.mem_ends_of_resolve hloc)) content hb.2⟩

theorem leads_createParent (hgrow : ∀ t t', FileTree.Grows t t' → P t → P t') (p : Path) :
    Act.Leads (ρ := SourceRequest) (fun t => plan.BuildsOn t ∧ P t) (Act.createParent p)
      (fun t => plan.BuildsOn t ∧ P t) := by
  intro b hb
  rw [Act.files_createParent_eq]
  have hgrows := withParent_grows b.files p
  exact ⟨hb.1.grow hgrows, hgrow _ _ hgrows hb.2⟩

theorem leads_writeDirectory (hP : Closed sites P)
    (hgrow : ∀ t t', FileTree.Grows t t' → P t → P t') {root : Path}
    {files : List (String × Content)}
    (hsites : ∀ e ∈ files, (plan.trailOf .place (root.join e.1)).ends ⊆ sites) :
    Act.Leads (fun t => plan.BuildsOn t ∧ P t) (writeDirectory root files)
      (fun t => plan.BuildsOn t ∧ P t) := by
  induction files with
  | nil => exact (Act.idle_pure _).leads fun _ h => h
  | cons e later ih =>
      obtain ⟨name, content⟩ := e
      rw [writeDirectory]
      refine (leads_createParent hgrow _).bind (fun _ => ?_) fun _ h => h
      refine (leads_write hP (hsites _ List.mem_cons_self) content).bind (fun _ => ?_) fun _ h => h
      exact ih fun e he => hsites e (List.mem_cons_of_mem _ he)

theorem leads_writeArchive (hP : Closed sites P) {path : Path}
    (hsites : (plan.trailOf .place path).ends ⊆ sites) (files : List (String × Content)) :
    Act.Leads (fun t => plan.BuildsOn t ∧ P t) (writeArchive path files)
      (fun t => plan.BuildsOn t ∧ P t) := by
  rw [writeArchive]
  refine (leads_write hP hsites _).bind (fun _ => ?_) fun _ h => h
  generalize Archive.Builder.addFiles {} _ = out
  obtain ⟨added, builder⟩ := out
  cases added with
  | true => exact leads_write hP hsites _
  | false => exact (Act.idle_throw _).leads fun _ h => h

end Steps

-- ── Which names are written ──────────────────────────────────────────────────

theorem sortOut_names {files others : List (String × Content)} {units : List SourceFile}
    (h : sortOut files = .ok (units, others)) :
    (∀ unit ∈ units, unit.path ∈ files.map Prod.fst) ∧ ∀ e ∈ others, e.1 ∈ files.map Prod.fst := by
  induction files generalizing units others with
  | nil =>
      cases h
      exact ⟨(fun _ hu => nomatch hu), (fun _ he => nomatch he)⟩
  | cons file later ih =>
      obtain ⟨path, content⟩ := file
      rw [sortOut] at h
      by_cases hunit : isUnit path = true
      · rw [if_pos hunit] at h
        cases hdecode : Text.decodeUtf8 content.bytes with
        | error f =>
            rw [hdecode] at h
            exact nomatch h
        | ok text =>
            rw [hdecode] at h
            obtain ⟨⟨units', others'⟩, hlater, h⟩ := Outcome.bind_eq_ok.1 h
            cases h
            obtain ⟨hunits, hothers⟩ := ih hlater
            refine ⟨List.forall_mem_cons.2 ⟨List.mem_cons_self, fun u hu => ?_⟩, fun e he => ?_⟩
            · exact List.mem_cons_of_mem _ (hunits u hu)
            · exact List.mem_cons_of_mem _ (hothers e he)
      · rw [if_neg hunit] at h
        obtain ⟨⟨units', others'⟩, hlater, h⟩ := Outcome.bind_eq_ok.1 h
        cases h
        obtain ⟨hunits, hothers⟩ := ih hlater
        refine ⟨fun u hu => ?_, List.forall_mem_cons.2 ⟨List.mem_cons_self, fun e he => ?_⟩⟩
        · exact List.mem_cons_of_mem _ (hunits u hu)
        · exact List.mem_cons_of_mem _ (hothers e he)

theorem takeAnswers_names {answers rest : SortedMap String String} {units : List SourceFile}
    {taken : List (String × Content)} (h : takeAnswers answers units = .ok (taken, rest)) :
    taken.map Prod.fst = units.map SourceFile.path := by
  induction units generalizing answers taken with
  | nil =>
      cases h
      rfl
  | cons unit later ih =>
      rw [takeAnswers] at h
      cases hanswer : answers.get? unit.path with
      | none =>
          rw [hanswer] at h
          exact nomatch h
      | some text =>
          rw [hanswer] at h
          obtain ⟨⟨taken', rest'⟩, hlater, h⟩ := Outcome.bind_eq_ok.1 h
          cases h
          rw [List.map_cons, List.map_cons, ih hlater]

/-- A usable answer has the paths of the units. -/
theorem matchAnswers_names {units answers : List SourceFile} {sources : List (String × Content)}
    (h : matchAnswers units answers = .ok sources) :
    sources.map Prod.fst = units.map SourceFile.path := by
  obtain ⟨⟨taken, rest⟩, htaken, h⟩ := Outcome.bind_eq_ok.1 h
  dsimp only at h
  cases hkeys : rest.keys with
  | nil =>
      rw [hkeys] at h
      cases h
      exact takeAnswers_names htaken
  | cons extra more =>
      rw [hkeys] at h
      exact nomatch h

/-- All files of an output have names from the input. -/
theorem names_of_output {files others sources : List (String × Content)}
    {units answers : List SourceFile} (hsort : sortOut files = .ok (units, others))
    (hmatch : matchAnswers units answers = .ok sources) (pass : Bool) :
    ∀ e ∈ (sources ++ if pass then others else []).mergeSort fun a b => (compare a.1 b.1).isLE,
      e.1 ∈ files.map Prod.fst := by
  intro e he
  obtain ⟨hunits, hothers⟩ := sortOut_names hsort
  rcases List.mem_append.1 ((List.mergeSort_perm _ _).subset he) with he | he
  · have hname := List.mem_map_of_mem (f := Prod.fst) he
    rw [matchAnswers_names hmatch] at hname
    obtain ⟨unit, hunit, heq⟩ := List.mem_map.1 hname
    exact heq ▸ hunits unit hunit
  · cases pass with
    | true => exact hothers e he
    | false => exact nomatch he

-- ── A run ────────────────────────────────────────────────────────────────────

/-- What is known when the files of an input have been read. -/
def Read (t : FileTree) (input : Path) (files : List (String × Content)) : Prop :=
  (∃ node, t.stat input = .ok node)
    ∧ (t.isDir input = true → files.map Prod.fst = namesBelow t input)

section Runs

variable {t : FileTree} {input output : Path}

theorem meets_readFiles (t : FileTree) (input : Path) {P E : FileTree → Prop}
    (hP : ∀ u, P u → u = t) (hE : E t) :
    Act.Meets P (if t.isDir input then readDirectory input else readArchive input)
      (fun files u => u = t ∧ Read t input files) E := by
  have hfail : ∀ b : Bench SourceRequest, P b.files → ∀ u, u = b.files → E u := by
    intro b hb u hu
    rw [hu, hP _ hb]
    exact hE
  by_cases hdir : t.isDir input = true
  · rw [if_pos hdir]
    refine Act.meets_get_bind fun b hb => ?_
    rw [hP _ hb]
    cases hfiles : t.filesBelow input with
    | error f => exact Act.meets_throw _ (hP _ hb ▸ hfail b hb)
    | ok files =>
        refine Act.meets_pure fun _ h => ⟨h, ?_, fun _ => ?_⟩
        · rw [FileTree.isDir] at hdir
          cases hstat : t.stat input with
          | ok node => exact ⟨node, rfl⟩
          | error f =>
              rw [hstat] at hdir
              exact nomatch hdir
        · rw [namesBelow, hfiles, List.map_map]
          rfl
  · rw [if_neg hdir]
    refine Act.meets_get_bind fun b hb => ?_
    rw [hP _ hb]
    cases hread : t.readContent input with
    | error f => exact Act.meets_throw _ (hP _ hb ▸ hfail b hb)
    | ok content =>
        obtain ⟨node, hstat, -⟩ := Outcome.bind_eq_ok.1 hread
        dsimp only
        cases content.members? with
        | none => exact Act.meets_throw _ (hP _ hb ▸ hfail b hb)
        | some members =>
            dsimp only
            cases Archive.select (fun _ => true) members with
            | error f => cases f <;> exact Act.meets_throw _ (hP _ hb ▸ hfail b hb)
            | ok files =>
                exact Act.meets_pure fun _ h => ⟨h, ⟨node, hstat⟩, fun h' => absurd h' hdir⟩

theorem leads_discardTree (t : FileTree) (output : Path) :
    Act.Leads (ρ := SourceRequest) (· = t) (Act.discardTree output)
      (· = Act.discarded t output) := by
  intro b hb
  rw [Act.files_discardTree, hb]

theorem leads_prepare (t : FileTree) (output : Path) :
    Act.Leads (ρ := SourceRequest) (· = Act.discarded t output) (Act.createParent output)
      (· = prepared t output) := by
  intro b hb
  rw [Act.files_createParent_eq, hb, prepared]

theorem sites_discard (t : FileTree) (input output : Path) :
    discardSites t output ⊆ sites t input output := fun _ h =>
  List.mem_append_left _ (List.mem_append_left _ h)

theorem sites_discardAgain (t : FileTree) (input output : Path) :
    discardSites (Act.discarded t output) output ⊆ sites t input output := fun _ h =>
  List.mem_append_left _ (List.mem_append_right _ h)

theorem sites_written {p : Path} (h : p ∈ writtenPaths t input output) :
    ((Act.discarded t output).trailOf .place p).ends ⊆ sites t input output := fun _ hend =>
  List.mem_append_right _ (List.mem_flatMap.2 ⟨p, h, hend⟩)

/-- An input that is apart from the sites is what it was when writing starts. -/
theorem stat_prepared (hroute : Apart (sites t input output) (t.trailOf .target input).all)
    {node : Node} (h : t.stat input = .ok node) : (prepared t output).stat input = .ok node := by
  have hgrows : GrowsApart (sites t input output) t (prepared t output) :=
    ((closed_growsApart _ t).discarded (FileTree.HoldsTo.refl t) (sites_discard t input output)
      (GrowsApart.refl _ t)).grow (withParent_grows _ output)
  exact FileTree.stat_congr (fun loc hloc node => hgrows.at? (apart_singleton hroute hloc)) h

variable {P : FileTree → Prop}

/-- Writing the output, once the tree is ready for it. -/
theorem meets_writeOutput (hP : Closed (sites t input output) P)
    (hgrow : t.isDir input = true → ∀ u u', FileTree.Grows u u' → P u → P u')
    {files all : List (String × Content)} (hread : Read t input files)
    (hnames : ∀ e ∈ all, e.1 ∈ files.map Prod.fst) :
    Act.Leads (fun u => (Act.discarded t output).BuildsOn u ∧ P u)
      (if t.isDir input = true then writeDirectory output all else writeArchive output all)
      (fun u => (Act.discarded t output).BuildsOn u ∧ P u) := by
  by_cases hdir : t.isDir input = true
  · rw [if_pos hdir]
    refine leads_writeDirectory hP (hgrow hdir) fun e he => sites_written ?_
    rw [writtenPaths, if_pos hdir]
    exact List.mem_map_of_mem (hread.2 hdir ▸ hnames e he)
  · rw [if_neg hdir]
    refine leads_writeArchive hP (sites_written ?_) all
    rw [writtenPaths, if_neg hdir]
    exact List.mem_singleton.2 rfl

/-- A failed attempt has changed nothing, or has built on the tree without the output. -/
theorem meets_produce (r : SourceRemapper) (hP : Closed (sites t input output) P)
    (hgrow : t.isDir input = true → ∀ u u', FileTree.Grows u u' → P u → P u')
    (hprepared : P (Act.discarded t output) → P (prepared t output))
    (hroute : Apart (sites t input output) (t.trailOf .target input).all) (hstart : P t)
    (table : Naming.RenameTable) (classpath : List Path) :
    Act.Meets (· = t) (r.produce table input output classpath) (fun _ _ => True)
      (fun u => u = t ∨ ((Act.discarded t output).BuildsOn u ∧ P u)) := by
  have hdiscarded : P (Act.discarded t output) :=
    hP.discarded (FileTree.HoldsTo.refl t) (sites_discard t input output) hstart
  have hbuilt : (Act.discarded t output).BuildsOn (prepared t output) :=
    (FileTree.BuildsOn.refl _).grow (withParent_grows _ output)
  rw [produce]
  refine ((Act.idle_resolveClasspath input [] classpath).meets fun _ => .inl).bind fun classpath => ?_
  refine (Act.meets_ask _).bind fun isDirectory => ?_
  refine Act.Meets.of_fact (p := isDirectory = t.isDir input) (fun u hu => hu.1 ▸ hu.2) ?_
  rintro rfl
  dsimp only
  rw [Act.ite_bind]
  refine Act.Meets.bind (meets_readFiles t input ?_ ?_) fun files => ?_
  · exact fun _ h => h.1
  · exact .inl rfl
  refine Act.Meets.of_fact (fun _ h => h.2) fun hread => ?_
  cases hsort : sortOut files with
  | error e => exact Act.meets_throw_bind e fun _ h => .inl h.1
  | ok parts =>
      obtain ⟨units, others⟩ := parts
      dsimp only
      rw [pure_bind]
      refine (Act.Idle.meets (fun _ => rfl) fun _ h => .inl h.1).bind fun _ => ?_
      dsimp only
      cases r.tool.run { table, classpath, files := units } with
      | error chain => exact Act.meets_throw_bind _ fun _ h => .inl h.1
      | ok answers =>
          dsimp only
          rw [pure_bind]
          cases hmatch : matchAnswers units answers with
          | error f => exact Act.meets_throw_bind _ fun _ h => .inl h.1
          | ok sources =>
              dsimp only
              rw [pure_bind]
              have hnames := names_of_output hsort hmatch r.settings.passResources
              refine (((leads_discardTree t output).mono (fun _ h => h.1) fun _ h => h).meets
                ?_).bind fun _ => ?_
              · rintro _ rfl
                exact .inr ⟨FileTree.BuildsOn.refl _, hdiscarded⟩
              refine ((leads_prepare t output).meets ?_).bind fun _ => ?_
              · rintro _ rfl
                exact .inr ⟨hbuilt, hprepared hdiscarded⟩
              refine (Act.meets_ask _).bind fun isDirectory => ?_
              have hsame : (prepared t output).isDir input = t.isDir input := by
                obtain ⟨node, hstat⟩ := hread.1
                rw [FileTree.isDir, FileTree.isDir, hstat, stat_prepared hroute hstat]
              refine Act.Meets.of_fact (p := isDirectory = t.isDir input)
                (fun u hu => hsame ▸ hu.1 ▸ hu.2) ?_
              rintro rfl
              rw [Act.ite_bind]
              refine (((meets_writeOutput hP hgrow hread hnames).mono ?_ fun _ h => h).meets
                fun _ => .inr).bind fun _ => Act.meets_pure fun _ _ => trivial
              rintro _ ⟨rfl, -⟩
              exact ⟨hbuilt, hprepared hdiscarded⟩

/-- **What a run preserves.** A property that discarding and writing at the sites of a run
    preserve, and that the directories which the run creates preserve, holds after a failure. -/
theorem meets_runJob (r : SourceRemapper) (hP : Closed (sites t input output) P)
    (hgrow : t.isDir input = true → ∀ u u', FileTree.Grows u u' → P u → P u')
    (hprepared : P (Act.discarded t output) → P (prepared t output))
    (hroute : Apart (sites t input output) (t.trailOf .target input).all) (hstart : P t)
    (table : Naming.RenameTable) (classpath : List Path) :
    Act.Meets (· = t) (r.runJob table input output classpath) (fun _ _ => True) P := by
  rw [runJob]
  dsimp only
  refine ((Act.idle_report _ _).meets fun _ h => ?_).bind fun _ => ?_
  · exact h ▸ hstart
  refine (meets_produce r hP hgrow hprepared hroute hstart table classpath).orElseDo fun e => ?_
  have hclean : Act.Leads (ρ := SourceRequest)
      (fun u => u = t ∨ ((Act.discarded t output).BuildsOn u ∧ P u)) (Act.discardTree output) P := by
    intro b hb
    rw [Act.files_discardTree]
    rcases hb with hsame | ⟨hbuilds, hkept⟩
    · rw [hsame]
      exact hP.discarded (FileTree.HoldsTo.refl t) (sites_discard t input output) hstart
    · exact hP.discarded hbuilds.holdsTo (sites_discardAgain t input output) hkept
  refine Act.Leads.bind ((Act.idle_report _ _).leads fun _ h => h) (fun _ => ?_) ?_
  · refine hclean.bind (fun _ => ?_) fun _ h => h
    exact (Act.idle_invalidateCache.bind fun _ => Act.idle_pure _).leads fun _ h => h
  · rintro u (rfl | ⟨-, hkept⟩)
    · exact hstart
    · exact hkept

end Runs

-- ── Runs that spare their input ──────────────────────────────────────────────

/-- The path leads to the same contents in both trees: to the same file, or to a directory
    with the same files below it. -/
def SameContents (t t' : FileTree) (p : Path) : Prop :=
  t'.stat p = t.stat p ∧ (t.isDir p = true → t'.filesBelow p = t.filesBelow p)

instance (t t' : FileTree) (p : Path) : Decidable (SameContents t t' p) :=
  inferInstanceAs (Decidable (t'.stat p = t.stat p
    ∧ (t.isDir p = true → t'.filesBelow p = t.filesBelow p)))

theorem SameContents.refl (t : FileTree) (p : Path) : SameContents t t p := ⟨rfl, fun _ => rfl⟩

/-- The locations that a path depends on. -/
def route (t : FileTree) (p : Path) : List Location := (t.trailOf .target p).all

/-- Where a path leads to, if it leads anywhere. -/
def top (t : FileTree) (p : Path) : List Location :=
  match t.resolve .target p with
  | .ok loc => [loc]
  | .error _ => []

/-- Where a path is named, if its directory exists. -/
def named (t : FileTree) (p : Path) : List Location :=
  match t.entryAt p with
  | .ok loc => [loc]
  | .error _ => []

/-- The tree in which an input has been moved aside. -/
def movedAside (t : FileTree) (input dev : Path) : Except IoFault FileTree :=
  (if t.pathExists dev then t.removeFile dev else .ok t) >>= (·.rename input dev)

/-- The tree in which an input has been moved aside, if that succeeds. -/
def aside (t : FileTree) (input dev : Path) : List FileTree :=
  match movedAside t input dev with
  | .ok m => [m]
  | .error _ => []

/-- The locations on the way to where two paths are named. -/
def entryWays (t : FileTree) (input dev : Path) : List Location :=
  (t.entryTrail input).ways ++ (t.entryTrail dev).ways

/-- A run to another place spares its input: no site is at or above the route of the input,
    and none is inside the input. -/
structure SparesBeside (t : FileTree) (input output : Path) : Prop where
  route : Apart (sites t input output) (route t input)
  inside : Apart (top t input) (sites t input output)

/-- A run in place spares its input, which is moved from `src` to `dst` and back: both places
    are off the ways to them and off the rest of the route; the run on the moved input, an
    archive, has its sites off all of these, and creates no directory at the old place. -/
structure SparesMoved (t : FileTree) (input output dev : Path) : Prop where
  route : ∀ dst ∈ named t dev, Apart [dst] (route t input)
  source : ∀ src ∈ named t input, t.at? src ≠ some .dir
    ∧ ∀ loc ∈ SourceRemapper.route t input, FileTree.isBelow src loc = false
  ways : ∀ src ∈ named t input, ∀ dst ∈ named t dev,
    Apart [dst] (src :: entryWays t input dev) ∧ Apart [src] (entryWays t input dev)
  run : ∀ src ∈ named t input, ∀ dst ∈ named t dev, ∀ m ∈ aside t input dev,
    Apart (sites m dev output) (dst :: entryWays t input dev
      ++ (SourceRemapper.route t input).filter (· ≠ src) ++ SourceRemapper.route m dev)
  archive : ∀ m ∈ aside t input dev, m.isDir dev = false
  free : ∀ src ∈ named t input, ∀ m ∈ aside t input dev, (prepared m output).at? src ≠ some .dir

/-- The run spares its input. -/
def Spares (r : SourceRemapper) (t : FileTree) (input output : Path) : Prop :=
  if t.samePlace input output = true then
    SparesMoved t input output (Act.devPath input r.settings.devSuffix)
  else SparesBeside t input output

/-- The run is refused before it changes anything. -/
def Refuses (t : FileTree) (input output : Path) : Prop :=
  t.pathExists input = false
    ∨ (t.pathExists output = true ∧ t.isDir output ≠ t.isDir input)
    ∨ (t.samePlace input output = true ∧ t.isDir input = true)

instance (t : FileTree) (input output : Path) : Decidable (SparesBeside t input output) :=
  decidable_of_iff (Apart (sites t input output) (route t input)
      ∧ Apart (top t input) (sites t input output))
    ⟨fun h => ⟨h.1, h.2⟩, fun h => ⟨h.route, h.inside⟩⟩

instance (t : FileTree) (input output dev : Path) :
    Decidable (SparesMoved t input output dev) :=
  decidable_of_iff
    ((∀ dst ∈ named t dev, Apart [dst] (route t input))
      ∧ (∀ src ∈ named t input, t.at? src ≠ some .dir
          ∧ ∀ loc ∈ route t input, FileTree.isBelow src loc = false)
      ∧ (∀ src ∈ named t input, ∀ dst ∈ named t dev,
          Apart [dst] (src :: entryWays t input dev) ∧ Apart [src] (entryWays t input dev))
      ∧ (∀ src ∈ named t input, ∀ dst ∈ named t dev, ∀ m ∈ aside t input dev,
          Apart (sites m dev output) (dst :: entryWays t input dev
            ++ (route t input).filter (· ≠ src) ++ route m dev))
      ∧ (∀ m ∈ aside t input dev, m.isDir dev = false)
      ∧ ∀ src ∈ named t input, ∀ m ∈ aside t input dev,
          (prepared m output).at? src ≠ some .dir)
    ⟨fun h => ⟨h.1, h.2.1, h.2.2.1, h.2.2.2.1, h.2.2.2.2.1, h.2.2.2.2.2⟩,
      fun h => ⟨h.route, h.source, h.ways, h.run, h.archive, h.free⟩⟩

instance (r : SourceRemapper) (t : FileTree) (input output : Path) :
    Decidable (r.Spares t input output) :=
  inferInstanceAs (Decidable (if t.samePlace input output = true then
    SparesMoved t input output (Act.devPath input r.settings.devSuffix)
    else SparesBeside t input output))

instance (t : FileTree) (input output : Path) : Decidable (Refuses t input output) :=
  inferInstanceAs (Decidable (t.pathExists input = false
    ∨ (t.pathExists output = true ∧ t.isDir output ≠ t.isDir input)
    ∨ (t.samePlace input output = true ∧ t.isDir input = true)))

theorem mem_named {t : FileTree} {p : Path} {loc : Location} (h : t.entryAt p = .ok loc) :
    loc ∈ named t p := by
  rw [named, h]
  exact List.mem_singleton.2 rfl

theorem stat_of_pathExists {t : FileTree} {p : Path} (h : t.pathExists p = true) :
    ∃ node, t.stat p = .ok node := by
  rw [FileTree.pathExists] at h
  cases hstat : t.stat p with
  | ok node => exact ⟨node, rfl⟩
  | error f =>
      rw [hstat] at h
      exact nomatch h

-- ── To another place ─────────────────────────────────────────────────────────

/-- Sites that are off the route and not inside the input are off everything in it. -/
theorem SparesBeside.apart {t : FileTree} {input output : Path} (h : SparesBeside t input output)
    {loc x : Location} (hloc : t.resolve .target input = .ok loc)
    (hwithin : FileTree.isWithin loc x = true) : Apart (sites t input output) [x] := by
  intro site hsite other hother
  rw [List.mem_singleton.1 hother]
  refine Bool.eq_false_iff.2 fun hin => ?_
  rcases List.prefix_or_prefix_of_prefix (FileTree.isWithin_iff.1 hin)
    (FileTree.isWithin_iff.1 hwithin) with hsub | hsub
  · have hoff := h.route site hsite loc (FileTree.mem_trail_of_resolve hloc)
    rw [FileTree.isWithin_iff.2 hsub] at hoff
    exact nomatch hoff
  · have htop : loc ∈ top t input := by
      rw [top, hloc]
      exact List.mem_singleton.2 rfl
    have hoff := h.inside loc htop site hsite
    rw [FileTree.isWithin_iff.2 hsub] at hoff
    exact nomatch hoff

theorem SparesBeside.sameContents {t t' : FileTree} {input output : Path}
    (h : SparesBeside t input output) (hexists : t.pathExists input = true)
    (hgrows : GrowsApart (sites t input output) t t') : SameContents t t' input := by
  obtain ⟨node, hstat⟩ := stat_of_pathExists hexists
  obtain ⟨loc, hloc, hat⟩ := FileTree.stat_eq_ok hstat
  have hkept : ∀ l ∈ (t.trailOf .target input).all, ∀ node,
      t.at? l = some node → t'.at? l = some node :=
    fun l hl node => hgrows.at? (apart_singleton h.route hl)
  have hthere : t.at? loc ≠ none := by
    rw [hat]
    exact Option.some_ne_none node
  have hthere' : t'.at? loc ≠ none := by
    rw [hkept loc (FileTree.mem_trail_of_resolve hloc) node hat]
    exact Option.some_ne_none node
  refine ⟨(FileTree.stat_congr hkept hstat).trans hstat.symm, fun _ => ?_⟩
  refine FileTree.filesBelow_congr hloc (FileTree.resolve_congr hkept hloc hthere) hthere hthere'
    fun x content hwithin => ?_
  rcases hgrows x (h.apart hloc hwithin) with hsame | ⟨hnone, hdir⟩
  · rw [hsame]
  · rw [hnone, hdir]
    exact ⟨fun hfile => (nomatch hfile), fun hfile => (nomatch hfile)⟩

/-- A run to another place that fails leaves the input as it was. -/
theorem meets_beside (r : SourceRemapper) {t : FileTree} {input output : Path}
    (h : SparesBeside t input output) (hexists : t.pathExists input = true)
    (table : Naming.RenameTable) (classpath : List Path) :
    Act.Meets (· = t) (r.runJob table input output classpath) (fun _ _ => True)
      (SameContents t · input) := by
  have hrun := meets_runJob r (closed_growsApart (sites t input output) t)
    (fun _ u u' hgrows hu => hu.grow hgrows) (fun hu => hu.grow (withParent_grows _ output))
    h.route (GrowsApart.refl _ t) table classpath
  exact hrun.mono (fun _ h => h) (fun _ _ h => h) fun _ hgrows => h.sameContents hexists hgrows

-- ── In place ─────────────────────────────────────────────────────────────────

section InPlace

variable {t m : FileTree} {input output dev : Path}

/-- An archive is what it was while everything on its route stands. -/
theorem sameContents_of_route {u : FileTree} (hexists : t.pathExists input = true)
    (hfile : t.isDir input = false)
    (hkept : ∀ loc ∈ route t input, ∀ node, t.at? loc = some node → u.at? loc = some node) :
    SameContents t u input := by
  obtain ⟨node, hstat⟩ := stat_of_pathExists hexists
  refine ⟨(FileTree.stat_congr hkept hstat).trans hstat.symm, fun hdir => ?_⟩
  rw [hfile] at hdir
  exact nomatch hdir

/-- Moving aside removes an older file there and renames the input, or stops at a failure. -/
theorem meets_moveAside (t : FileTree) (input dev : Path) :
    Act.Meets (ρ := SourceRequest) (· = t) (Act.moveAside input dev)
      (fun _ m => movedAside t input dev = .ok m)
      (fun u => u = t ∨ ∃ dst, t.entryAt dev = .ok dst ∧ u = t.remove dst) := by
  have hrename : ∀ u, (if t.pathExists dev then t.removeFile dev else .ok t) = .ok u →
      (u = t ∨ ∃ dst, t.entryAt dev = .ok dst ∧ u = t.remove dst) →
      Act.Meets (ρ := SourceRequest) (· = u)
        (do
          Act.change input (·.rename input dev)
          let source := input.text
          let dest := dev.text
          Act.report .info s!":moved {source} to {dest}")
        (fun _ m => movedAside t input dev = .ok m)
        (fun u => u = t ∨ ∃ dst, t.entryAt dev = .ok dst ∧ u = t.remove dst) := by
    intro u hu hsafe
    refine (Act.meets_change u input _ hsafe).bind fun _ => ?_
    exact (Act.meets_report _ _).mono (fun m hm => Outcome.bind_eq_ok.2 ⟨u, hu, hm⟩)
      (fun _ _ h => h) fun _ h => h
  rw [Act.moveAside]
  refine (Act.meets_ask _).bind fun found => ?_
  refine Act.Meets.of_fact (p := found = t.pathExists dev) (fun u hu => hu.1 ▸ hu.2) ?_
  rintro rfl
  refine Act.Meets.mono (P := (· = t)) ?_ (fun _ h => h.1) (fun _ _ h => h) fun _ h => h
  dsimp only
  by_cases hfound : t.pathExists dev = true
  · rw [if_pos hfound] at hrename ⊢
    refine (Act.meets_change t dev _ (.inl rfl)).bind fun _ => ?_
    refine Act.Meets.of_each fun u hu => hrename u hu (.inr ?_)
    obtain ⟨dst, hdst, -, rfl⟩ := FileTree.removeFile_eq_ok hu
    exact ⟨dst, hdst, rfl⟩
  · rw [if_neg hfound] at hrename ⊢
    exact hrename t rfl (.inl rfl)

/-- What moving an input aside has done. -/
structure Moved (t m : FileTree) (input dev : Path) (src dst : Location) (node : Node) :
    Prop where
  source : t.entryAt input = .ok src
  dest : t.entryAt dev = .ok dst
  tests : ∃ u, FileTree.Renames u input dev src dst node
  inner : src ≠ [] ∧ dst ≠ []
  found : t.at? src = some node
  there : m.at? dst = some node
  gone : m.at? src = none
  others : ∀ loc, FileTree.isWithin src loc = false → FileTree.isWithin dst loc = false →
    m.at? loc = t.at? loc

theorem moved_of_movedAside (h : SparesMoved t input output dev)
    (hm : movedAside t input dev = .ok m) : ∃ src dst node, Moved t m input dev src dst node := by
  obtain ⟨u, hu, hrename⟩ := Outcome.bind_eq_ok.1 hm
  obtain ⟨src, dst, node, htests, hcases⟩ := FileTree.rename_inv hrename
  -- nothing is in the tree before the renaming that was not there at the start
  have hless : u = t ∨ ∃ loc, t.entryAt dev = .ok loc ∧ u = t.remove loc := by
    by_cases hfound : t.pathExists dev = true
    · rw [if_pos hfound] at hu
      obtain ⟨loc, hloc, -, heq⟩ := FileTree.removeFile_eq_ok hu
      exact .inr ⟨loc, hloc, heq⟩
    · rw [if_neg hfound] at hu
      exact .inl (Except.ok.inj hu).symm
  have hkept : ∀ loc node, u.at? loc = some node → t.at? loc = some node := by
    intro loc node hat
    rcases hless with rfl | ⟨top, -, rfl⟩
    · exact hat
    · rw [FileTree.at?_remove] at hat
      split at hat
      · exact nomatch hat
      · exact hat
  have hsource : t.entryAt input = .ok src :=
    FileTree.entryAt_congr (fun loc _ => hkept loc) htests.sourceAt
  have hdest : t.entryAt dev = .ok dst :=
    FileTree.entryAt_congr (fun loc _ => hkept loc) htests.destAt
  have hapart := (h.ways src (mem_named hsource) dst (mem_named hdest)).1
  have hout : FileTree.isWithin dst src = false :=
    hapart dst List.mem_cons_self src List.mem_cons_self
  have hne : src ≠ dst := by
    rintro rfl
    rw [FileTree.isWithin_self] at hout
    exact nomatch hout
  have hsrc : src ≠ [] := by
    rintro rfl
    have hinto := htests.into
    rw [FileTree.isBelow, Bool.and_eq_false_iff] at hinto
    rcases hinto with hin | heq
    · exact nomatch hin
    · exact hne (by simpa using heq)
  have hdst : dst ≠ [] := by
    rintro rfl
    exact nomatch hout
  have hfound := FileTree.lookUp_eq_ok htests.found
  rcases hcases with ⟨heq, -⟩ | ⟨-, -, rfl⟩
  · exact absurd heq hne
  refine ⟨src, dst, node, hsource, hdest, ⟨u, htests⟩, ⟨hsrc, hdst⟩, hkept src node hfound,
    FileTree.at?_move_dest hsrc hdst hfound, ?_, fun loc hnotSrc hnotDst => ?_⟩
  · rw [FileTree.at?_move_of_outside u hout, FileTree.at?_remove,
      if_pos ⟨FileTree.isWithin_self src, hsrc⟩]
  · rw [FileTree.at?_move_of_outside u hnotDst, FileTree.at?_remove, if_neg (by simp [hnotSrc])]
    rcases hless with rfl | ⟨top, htop, rfl⟩
    · rfl
    · obtain rfl : top = dst := Except.ok.inj (htop.symm.trans hdest)
      rw [FileTree.at?_remove, if_neg (by simp [hnotDst])]

/-- The moved input is moved back, and its route stands as it did. -/
theorem Moved.back {src dst : Location} {node : Node} (hmoved : Moved t m input dev src dst node)
    (h : SparesMoved t input output dev) (hm : movedAside t input dev = .ok m) {f : FileTree}
    (hgrows : GrowsApart (sites m dev output) m f) (hfree : f.at? src ≠ some .dir) :
    f.rename dev input = .ok (f.move dst src)
      ∧ ∀ loc ∈ route t input, ∀ n, t.at? loc = some n → (f.move dst src).at? loc = some n := by
  have hsrc := mem_named hmoved.source
  have hdst := mem_named hmoved.dest
  have haside : m ∈ aside t input dev := by
    rw [aside, hm]
    exact List.mem_singleton.2 rfl
  have hrun := h.run src hsrc dst hdst m haside
  obtain ⟨hoffDst, hoffSrc⟩ := h.ways src hsrc dst hdst
  have hout : FileTree.isWithin dst src = false :=
    hoffDst dst List.mem_cons_self src List.mem_cons_self
  have hne : src ≠ dst := by
    rintro rfl
    rw [FileTree.isWithin_self] at hout
    exact nomatch hout
  have hnode : node ≠ .dir := by
    rintro rfl
    exact (h.source src hsrc).1 hmoved.found
  have hthere : f.at? dst = some node :=
    hgrows.at? (apart_singleton hrun (by simp)) hmoved.there
  -- what lies off both places and off the sites is as it was at the start
  have hkept : ∀ loc n, FileTree.isWithin src loc = false → FileTree.isWithin dst loc = false →
      Apart (sites m dev output) [loc] → t.at? loc = some n → f.at? loc = some n := by
    intro loc n hnotSrc hnotDst hapart hat
    exact hgrows.at? hapart ((hmoved.others loc hnotSrc hnotDst).trans hat)
  have hways : ∀ loc ∈ entryWays t input dev, ∀ n, t.at? loc = some n → f.at? loc = some n := by
    intro loc hloc n
    refine hkept loc n (hoffSrc src List.mem_cons_self loc hloc)
      (hoffDst dst List.mem_cons_self loc (List.mem_cons_of_mem _ hloc)) (apart_singleton hrun ?_)
    simp [hloc]
  have hsource : f.entryAt input = .ok src :=
    FileTree.entryAt_congr (fun loc hloc => hways loc (List.mem_append_left _ hloc)) hmoved.source
  have hdest : f.entryAt dev = .ok dst :=
    FileTree.entryAt_congr (fun loc hloc => hways loc (List.mem_append_right _ hloc)) hmoved.dest
  obtain ⟨u, htests⟩ := hmoved.tests
  refine ⟨FileTree.rename_back htests hne hnode hsource hdest hthere hfree, fun loc hloc n hat => ?_⟩
  by_cases heq : loc = src
  · rw [heq] at hat ⊢
    rw [FileTree.at?_move_dest hmoved.inner.2 hmoved.inner.1 hthere, ← hat, hmoved.found]
  · have hnotDst : FileTree.isWithin dst loc = false := h.route dst hdst dst List.mem_cons_self loc hloc
    have hnotSrc : FileTree.isWithin src loc = false := by
      have hbelow := (h.source src hsrc).2 loc hloc
      rw [FileTree.isBelow, Bool.and_eq_false_iff] at hbelow
      rcases hbelow with hin | hsame
      · exact hin
      · exact absurd (by simpa using hsame : src = loc).symm heq
    rw [FileTree.at?_move_of_outside f hnotSrc, FileTree.at?_remove, if_neg (by simp [hnotDst])]
    refine hkept loc n hnotSrc hnotDst (apart_singleton hrun ?_) hat
    simp [hloc, heq]

/-- A run in place that fails leaves the input as it was. -/
theorem meets_inPlace (r : SourceRemapper) (h : SparesMoved t input output dev)
    (hexists : t.pathExists input = true) (hfile : t.isDir input = false)
    (table : Naming.RenameTable) (classpath : List Path) :
    Act.Meets (· = t)
      (do
        Act.moveAside input dev
        Act.orElseDo (r.runJob table dev output classpath) fun _ => Act.moveBack input dev)
      (fun _ _ => True) (SameContents t · input) := by
  refine Act.Meets.bind ((meets_moveAside t input dev).mono (fun _ h => h) (fun _ _ h => h) ?_)
    fun _ => Act.Meets.of_each fun m hm => ?_
  · rintro u (rfl | ⟨dst, hdst, rfl⟩)
    · exact SameContents.refl u input
    · refine sameContents_of_route hexists hfile fun loc hloc node hat => ?_
      have hout := h.route dst (mem_named hdst) dst List.mem_cons_self loc hloc
      rw [FileTree.at?_remove, if_neg (by simp [hout])]
      exact hat
  obtain ⟨src, dst, node, hmoved⟩ := moved_of_movedAside h hm
  have haside : m ∈ aside t input dev := by
    rw [aside, hm]
    exact List.mem_singleton.2 rfl
  have hsrc := mem_named hmoved.source
  have hroute : Apart (sites m dev output) (route m dev) := by
    intro site hsite loc hloc
    exact h.run src hsrc dst (mem_named hmoved.dest) m haside site hsite loc
      (List.mem_append_right _ hloc)
  have hrun := meets_runJob r
    ((closed_growsApart (sites m dev output) m).and (closed_no_dir (sites m dev output) src))
    (fun hdir => absurd hdir (by rw [h.archive m haside]; exact Bool.false_ne_true))
    (fun hkept => ⟨hkept.1.grow (withParent_grows _ output), h.free src hsrc m haside⟩)
    hroute ⟨GrowsApart.refl _ m, by rw [hmoved.gone]; exact fun hdir => nomatch hdir⟩
    table classpath
  refine hrun.orElseDo fun _ b hb => ?_
  obtain ⟨hback, hkept⟩ := hmoved.back h hm hb.1 hb.2
  rw [Act.moveBack]
  rw [Act.run_get_bind]
  rw [hback]
  exact sameContents_of_route hexists hfile hkept

end InPlace

-- ── The input ────────────────────────────────────────────────────────────────

/-- A bench with the given nodes. -/
def benchOf (nodes : List (Location × Node)) : Bench SourceRequest :=
  { files := { nodes := .ofList nodes } }

/-- A remapper whose tool refuses every request. -/
def refusing (devSuffix : String) : SourceRemapper :=
  { tool := { name := "refuser", run := fun _ => .error ["refused"] }, settings := { devSuffix } }

/-- A remapper whose tool gives every unit back as it is. -/
def echoing : SourceRemapper :=
  { tool := { name := "echo", run := fun request => .ok request.files }, settings := {} }

/-- The run of a remapper without names to change. -/
def runOn (r : SourceRemapper) (input output : String) (nodes : List (Location × Node)) :
    Except Error SourceOutcome × Bench SourceRequest :=
  (r.remapWith { direction := { source := "a", dest := "b" } } ⟨input⟩ ⟨output⟩ []).run.run
    (benchOf nodes)

/-- An archive that a link names. -/
def linkedArchive : List (Location × Node) :=
  [(["in.jar"], .file (.archive [])), (["l.jar"], .link ⟨"in.jar"⟩)]

/-- The run ends with an error, and the input does not lead to what it led to. -/
def LosesInput (r : SourceRemapper) (input output : String) (nodes : List (Location × Node)) :
    Prop :=
  (r.runOn input output nodes).1.isOk = false
    ∧ ¬ SameContents (benchOf nodes).files (r.runOn input output nodes).2.files ⟨input⟩

/-- Which parts of `SparesBeside` hold, in their order. -/
def sparedBeside (input output : String) (nodes : List (Location × Node)) : List Bool :=
  let t := (benchOf nodes).files
  [decide (Apart (sites t ⟨input⟩ ⟨output⟩) (route t ⟨input⟩)),
    decide (Apart (top t ⟨input⟩) (sites t ⟨input⟩ ⟨output⟩))]

end SourceRemapper

end Nomenclator.Remap
