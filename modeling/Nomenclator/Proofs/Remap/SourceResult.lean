import Nomenclator.Proofs.Files.Reach
import Nomenclator.Proofs.Remap.ClassPath
import Nomenclator.Proofs.Remap.SourceFiles

/-! # The result of remapping sources

    In a plain tree, and where input and output lie apart, a run that is given answers
    for just the units of its input either fails at a file or leaves an output.  Just
    the files that belong there are in it exactly if the files that are carried over from
    a directory have names that are texts: other names are shown with replacements, and
    the files are written to what is shown.

    * **Places** — discarding and preparing an output leave the input alone and leave
      no file below the output (`prepared_apart`, `no_file_prepared`);
    * **Writing** — one file after the other below a directory (`Wrote`,
      `ends_writeDirectory`), or one archive (`ends_writeArchive`), after the older output
      has been discarded (`ends_renew`);
    * **The output** — what was written is what belongs there or not (`holds_iff`);
    * **The run** — the tool is asked once; its answers decide whether the run fails
      because of it, and what is in the output (`ends_produce`, `remapWith_exact`). -/

namespace Nomenclator.Remap

open Files Act

/-- The tool has failed, or what it gave back cannot be used. -/
def Error.isToolFailure : Error → Bool
  | .toolFailure .. => true
  | _ => false

namespace SourceRemapper

-- ── Places ───────────────────────────────────────────────────────────────────

/-- The paths hold no `..`; the output neither is nor contains nor lies inside the input, and
    its sidecar is not the input. -/
structure LieApart (input output : Path) : Prop where
  inputForward : input.Forward
  outputForward : output.Forward
  outside : ¬ output.place <+: input.place
  inside : ¬ input.place <+: output.place
  sidecar : (Sidecar.pathOf output).place ≠ input.place

instance (input output : Path) : Decidable (LieApart input output) :=
  decidable_of_iff (input.Forward ∧ output.Forward ∧ ¬ output.place <+: input.place
      ∧ ¬ input.place <+: output.place ∧ (Sidecar.pathOf output).place ≠ input.place)
    ⟨fun h => ⟨h.1, h.2.1, h.2.2.1, h.2.2.2.1, h.2.2.2.2⟩,
      fun h => ⟨h.inputForward, h.outputForward, h.outside, h.inside, h.sidecar⟩⟩

/-- What is at and below the place of a path is as it was. -/
def KeepsBelow (t t' : FileTree) (p : Path) : Prop :=
  ∀ loc, p.place <+: loc → t'.at? loc = t.at? loc

theorem KeepsBelow.trans {t u v : FileTree} {p : Path} (htu : KeepsBelow t u p)
    (huv : KeepsBelow u v p) : KeepsBelow t v p :=
  fun loc hloc => (huv loc hloc).trans (htu loc hloc)

section Places

variable {t : FileTree} (ht : t.Plain) {input output : Path}

theorem LieApart.input_ne_nil (h : LieApart input output) : input.place ≠ [] :=
  fun hnil => h.inside (hnil ▸ List.nil_prefix)

theorem LieApart.output_ne_nil (h : LieApart input output) : output.place ≠ [] :=
  fun hnil => h.outside (hnil ▸ List.nil_prefix)

/-- What is at or below the input is off the output and its sidecar. -/
theorem LieApart.off (h : LieApart input output) {loc : Location} (hloc : input.place <+: loc) :
    ¬ output.place <+: loc ∧ ¬ loc <+: output.place ∧ loc ≠ (Sidecar.pathOf output).place := by
  refine ⟨fun hin => ?_, fun habove => h.inside (hloc.trans habove), fun heq => ?_⟩
  · exact (List.prefix_or_prefix_of_prefix hin hloc).elim h.outside h.inside
  · have hsuffix : Path.Suffix ".remap.json" := by decide
    obtain ⟨dir, name, hplace, hdir⟩ := h.outputForward.append hsuffix
    rw [heq, Sidecar.pathOf, hplace] at hloc
    rcases List.prefix_concat_iff.1 hloc with hsame | hinside
    · exact h.sidecar (by rw [Sidecar.pathOf, hplace, hsame])
    · exact h.inside (hinside.trans hdir)

include ht

/-- Discarding an output changes nothing outside, apart from its sidecar. -/
theorem discarded_plain (hne : output.place ≠ []) :
    (discarded t output).Plain ∧ ∀ loc, ¬ output.place <+: loc →
      loc ≠ (Sidecar.pathOf output).place → (discarded t output).at? loc = t.at? loc := by
  rw [discarded]
  by_cases hdir : t.isDir output = true
  · rw [if_pos hdir]
    obtain ⟨hplain, hsame, -⟩ := ht.removeDirAll_below hne (FileTree.stat_of_isDir hdir)
    exact ⟨hplain, fun loc hloc _ => hsame loc hloc⟩
  · rw [if_neg hdir]
    obtain ⟨hkeeping, hsame⟩ := discarding_plain ht output
    refine ⟨hkeeping.plain, fun loc hloc hsidecar => hsame loc ?_ hsidecar⟩
    rintro rfl
    exact hloc (List.prefix_refl _)

/-- **Nothing is left below an output** that leads to a directory in any tree. -/
theorem nothing_discarded (hforward : output.Forward) (hne : output.place ≠ []) {v : FileTree}
    (hv : v.Plain) (hstat : v.stat output = .ok .dir) {loc : Location}
    (hloc : output.place <+: loc) (hbelow : loc ≠ output.place) :
    (discarded t output).at? loc = none := by
  rw [discarded]
  by_cases hthere : t.at? output.place = some .dir
  · have hdir := hv.stat_of_forward ht hforward hne hstat hthere
    rw [if_pos (by rw [FileTree.isDir, hdir])]
    exact (ht.removeDirAll_below hne hdir).2.2 loc hloc hbelow
  · have hdir : ¬ t.isDir output = true := by
      intro hdir
      obtain ⟨found, hfound, hat⟩ := FileTree.stat_eq_ok (FileTree.stat_of_isDir hdir)
      exact hthere ((ht.resolve_eq_ok hfound).1 ▸ hat)
    rw [if_neg hdir]
    cases hat : (discarding t output).at? loc with
    | none => exact hat
    | some node =>
        have hbefore := sheds_discarding t output loc node hat
        rw [ht.nothing_below hthere (FileTree.isWithin_iff.2 hloc) hbelow] at hbefore
        cases hbefore

omit ht in
theorem withParent_above {u : FileTree} (hu : u.Plain) {p : Path} (hforward : p.Forward)
    {loc : Location} (hloc : ¬ loc <+: p.place) : (withParent u p).at? loc = u.at? loc := by
  rw [withParent]
  cases hparent : p.parent? with
  | none => rfl
  | some parent =>
      obtain ⟨hup, habove, -⟩ := hforward.parent hparent
      exact hu.createDirAll_above hup fun hin => hloc (hin.trans habove)

/-- Preparing an output leaves the input alone. -/
theorem prepared_apart (h : LieApart input output) :
    (prepared t output).Plain ∧ KeepsBelow t (prepared t output) input := by
  obtain ⟨hplain, hsame⟩ := discarded_plain ht h.output_ne_nil
  refine ⟨(keeping_withParent hplain output).plain, fun loc hloc => ?_⟩
  obtain ⟨hout, habove, hsidecar⟩ := h.off hloc
  exact (withParent_above hplain h.outputForward habove).trans (hsame loc hout hsidecar)

/-- No file is below an output that has been prepared, if it leads to a directory in any tree. -/
theorem no_file_prepared (h : LieApart input output) {v : FileTree} (hv : v.Plain)
    (hstat : v.stat output = .ok .dir) {loc : Location} (hloc : output.place <+: loc)
    (hbelow : loc ≠ output.place) (content : Content) :
    (prepared t output).at? loc ≠ some (.file content) := by
  intro hat
  have hbefore := (grows_withParent (discarded t output) output).bringsNoFile loc content hat
  rw [nothing_discarded ht h.outputForward h.output_ne_nil hv hstat hloc hbelow] at hbefore
  cases hbefore

/-- The input leads to what it led to as long as everything at its place and below is kept. -/
theorem stat_kept (h : LieApart input output) {u : FileTree} (hu : u.Plain)
    (hkept : KeepsBelow t u input) {node : Node} (hstat : t.stat input = .ok node) :
    u.stat input = .ok node := by
  obtain ⟨loc, hloc, hat⟩ := FileTree.stat_eq_ok hstat
  obtain rfl := (ht.resolve_eq_ok hloc).1
  exact ht.stat_of_forward hu h.inputForward h.input_ne_nil hstat
    ((hkept _ (List.prefix_refl _)).trans hat)

end Places

-- ── Steps ────────────────────────────────────────────────────────────────────

/-- The step failed for another reason than the tool, and the tool was not asked. -/
def Mishap (b : Bench SourceRequest) (e : Error) (b' : Bench SourceRequest) : Prop :=
  e.isToolFailure = false ∧ b'.requests = b.requests

theorem ends_bind_run {α β : Type} {x : Act SourceRequest α} {f : α → Act SourceRequest β} {a : α}
    {b b' : Bench SourceRequest} {Q : β → Bench SourceRequest → Prop}
    {E : Error → Bench SourceRequest → Prop} (hx : x.run.run b = (.ok a, b'))
    (h : Ends (f a) b' Q E) : Ends (x >>= f) b Q E :=
  ⟨by rw [Outcome.run_bind_of_ok hx]; exact h.holds⟩

theorem ends_ask_bind {α β : Type} {question : FileTree → α} {f : α → Act SourceRequest β}
    {b : Bench SourceRequest} {Q : β → Bench SourceRequest → Prop}
    {E : Error → Bench SourceRequest → Prop} (h : Ends (f (question b.files)) b Q E) :
    Ends (ask question >>= f) b Q E :=
  ends_bind_run rfl h

theorem ends_change_quiet (path : Path) (operation : FileTree → Except IoFault FileTree)
    (b : Bench SourceRequest) :
    Ends (change path operation) b
      (fun _ b' => operation b.files = .ok b'.files ∧ b'.requests = b.requests) (Mishap b) := by
  refine (ends_change path operation b).mono (fun _ b' hb' => ?_) fun e b' hb' => ?_
  · obtain ⟨t, hrun, rfl⟩ := hb'
    exact ⟨hrun, rfl⟩
  · obtain ⟨rfl, fault, rfl⟩ := hb'
    exact ⟨rfl, rfl⟩

theorem ends_createParent_quiet (path : Path) (b : Bench SourceRequest) :
    Ends (createParent path) b
      (fun _ b' => b'.files = withParent b.files path ∧ b'.requests = b.requests) (Mishap b) := by
  refine (ends_createParent path b).mono (fun _ b' hb' => ⟨hb'.files, hb'.requests⟩)
    fun e b' hb' => ?_
  obtain ⟨hrests, parent, fault, rfl⟩ := hb'
  exact ⟨rfl, hrests.requests⟩

theorem ends_discardTree_quiet (output : Path) (b : Bench SourceRequest)
    {E : Error → Bench SourceRequest → Prop} :
    Ends (discardTree output) b
      (fun _ b' => b'.files = discarded b.files output ∧ b'.requests = b.requests) E := by
  obtain ⟨log, hrun⟩ := run_discardTree output b
  refine ⟨?_⟩
  rw [hrun]
  exact ⟨rfl, rfl⟩

-- ── Writing below a directory ────────────────────────────────────────────────

/-- The path of a file inside a directory: names that are joined by slashes. -/
def IsInnerPath (path : String) : Prop :=
  ∃ names : List String, names ≠ [] ∧ (∀ name ∈ names, IsName name) ∧ path = "/".intercalate names

/-- What writing files below a directory has done: each of them is there, if no other has its
    path, no other file has come or gone, and nothing has changed off the directory. -/
structure Wrote (root : Path) (files : List (String × Content)) (t t' : FileTree) : Prop where
  keeping : t.Keeping t'
  there : (files.map Prod.fst).Nodup →
    ∀ file ∈ files, t'.stat (root.join file.1) = .ok (.file file.2)
  others : ∀ loc content, (∀ file ∈ files, loc ≠ (root.join file.1).place) →
    (t'.at? loc = some (.file content) ↔ t.at? loc = some (.file content))
  off : ∀ loc, ¬ root.place <+: loc → ¬ loc <+: root.place → t'.at? loc = t.at? loc

theorem place_join {root : Path} (hroot : root.Forward) {path : String} (h : IsInnerPath path) :
    (root.join path).Forward ∧ ∃ names : List String, names ≠ [] ∧ path = "/".intercalate names
      ∧ (root.join path).place = root.place ++ names.map .ofText := by
  obtain ⟨names, hne, hnames, rfl⟩ := h
  obtain ⟨hforward, hplace⟩ := hroot.join hne hnames
  exact ⟨hforward, names, hne, rfl, hplace⟩

theorem place_join_inj {root : Path} (hroot : root.Forward) {path other : String}
    (h : IsInnerPath path) (hother : IsInnerPath other)
    (heq : (root.join path).place = (root.join other).place) : path = other := by
  obtain ⟨-, names, -, rfl, hplace⟩ := place_join hroot h
  obtain ⟨-, others, -, rfl, hplace'⟩ := place_join hroot hother
  rw [hplace, hplace'] at heq
  have hsame := congrArg (List.map Name.lossy) (List.append_cancel_left heq)
  rw [Name.map_lossy_map_ofText, Name.map_lossy_map_ofText] at hsame
  rw [hsame]

section Writing

variable {root : Path} (hroot : root.Forward)
include hroot

/-- One file is written after its directory has been created. -/
theorem wrote_one {t t' : FileTree} (ht : t.Plain) {path : String} (hpath : IsInnerPath path)
    {content : Content}
    (hwrite : (withParent t (root.join path)).write (root.join path) content = .ok t') :
    Wrote root [(path, content)] t t' := by
  obtain ⟨hforward, rel, hne, -, hplace⟩ := place_join hroot hpath
  have hprepared := keeping_withParent ht (root.join path)
  obtain ⟨hkeeping, hat⟩ := hprepared.plain.write hwrite
  refine ⟨hprepared.trans hkeeping, ?_, fun loc other hloc => ?_, fun loc hout habove => ?_⟩
  · intro _ file hfile
    rw [List.mem_singleton.1 hfile]
    exact FileTree.stat_write hwrite
  · rw [hat, if_neg (hloc _ List.mem_cons_self)]
    rcases grows_withParent t (root.join path) loc with hsame | ⟨hnone, hdir⟩
    · rw [hsame]
    · rw [hnone, hdir]
      exact ⟨fun h => (nomatch h), fun h => (nomatch h)⟩
  · have hoff : ¬ loc <+: (root.join path).place := by
      rw [hplace]
      intro hin
      exact (List.prefix_or_prefix_of_prefix hin (List.prefix_append _ _)).elim habove hout
    rw [hat, if_neg fun heq : loc = _ => hoff (heq ▸ List.prefix_refl _)]
    exact withParent_above ht hforward hoff

/-- Files are written one after the other. -/
theorem Wrote.cons {file : String × Content} {later : List (String × Content)} {t u v : FileTree}
    (hpath : IsInnerPath file.1) (hlater : ∀ other ∈ later, IsInnerPath other.1)
    (hone : Wrote root [file] t u) (hrest : Wrote root later u v) :
    Wrote root (file :: later) t v := by
  refine ⟨hone.keeping.trans hrest.keeping, fun hnodup => ?_, fun loc content hloc => ?_,
    fun loc hout habove => ?_⟩
  · obtain ⟨hnew, hdistinct⟩ := List.nodup_cons.1 hnodup
    refine List.forall_mem_cons.2 ⟨?_, hrest.there hdistinct⟩
    -- the later files have other places
    obtain ⟨hleads, hat⟩ := hone.keeping.plain.stat_file
      (hone.there (List.nodup_singleton _) file List.mem_cons_self)
    refine FileTree.stat_of_resolve
      (hone.keeping.plain.resolve_keeps hrest.keeping.plain hrest.keeping.dirs hleads) ?_
    refine (hrest.others _ _ fun other hother heq => hnew ?_).2 hat
    rw [place_join_inj hroot hpath (hlater other hother) heq]
    exact List.mem_map_of_mem hother
  · rw [hrest.others loc content fun other hother => hloc other (List.mem_cons_of_mem _ hother),
      hone.others loc content fun other hother =>
        hloc other (List.mem_cons.2 (.inl (List.mem_singleton.1 hother)))]
  · exact (hrest.off loc hout habove).trans (hone.off loc hout habove)

/-- **Writing files below a directory.** -/
theorem ends_writeDirectory {files : List (String × Content)}
    (hpaths : ∀ file ∈ files, IsInnerPath file.1) {b : Bench SourceRequest} (ht : b.files.Plain) :
    Ends (writeDirectory root files) b
      (fun _ b' => Wrote root files b.files b'.files ∧ b'.requests = b.requests) (Mishap b) := by
  induction files generalizing b with
  | nil =>
      refine ends_pure ⟨⟨ht.keeping, (fun _ _ h => nomatch h), fun _ _ _ => Iff.rfl,
        fun _ _ _ => rfl⟩, rfl⟩
  | cons file later ih =>
      obtain ⟨path, content⟩ := file
      have hpath := hpaths _ List.mem_cons_self
      have hothers := fun other hother => hpaths other (List.mem_cons_of_mem (path, content) hother)
      rw [writeDirectory]
      refine (ends_createParent_quiet (root.join path) b).bind fun _ b₁ hb₁ => ?_
      refine ((ends_change_quiet (root.join path) (·.write (root.join path) content) b₁).mono
        (fun _ _ h => h) fun e b' h => ⟨h.1, h.2.trans hb₁.2⟩).bind fun _ b₂ hb₂ => ?_
      rw [hb₁.1] at hb₂
      have hone := wrote_one hroot ht hpath hb₂.1
      have hrequests := hb₂.2.trans hb₁.2
      refine (ih hothers hone.keeping.plain).mono (fun _ b₃ hb₃ => ?_)
        fun e b' h => ⟨h.1, h.2.trans hrequests⟩
      exact ⟨Wrote.cons hroot hpath hothers hone hb₃.1, hb₃.2.trans hrequests⟩

end Writing

-- ── Writing an archive ───────────────────────────────────────────────────────

/-- The entries are the files in order, and between them directories that are on the way to one
    of the files, each once. -/
structure IsArchiveOf (entries : List ArchiveEntry) (files : List (String × Content)) : Prop where
  inOrder : (entries.filter fun e => !e.isDir)
    = files.map fun file => { name := file.1, data := file.2.bytes }
  nodup : (entries.map ArchiveEntry.name).Nodup
  dirs : ∀ e ∈ entries, e.isDir = true →
    e.data = [] ∧ ∃ file ∈ files, e.name ∈ Archive.dirNames file.1

theorem ends_writeArchive {output : Path} {files : List (String × Content)}
    (hplain : ∀ file ∈ files, Archive.isDirName file.1 = false)
    (hnodup : (files.map Prod.fst).Nodup) {b : Bench SourceRequest} (ht : b.files.Plain) :
    Ends (writeArchive output files) b
      (fun _ b' => (∃ entries, b'.files.stat output = .ok (.file (.archive entries))
          ∧ IsArchiveOf entries files)
        ∧ b'.files.Plain ∧ (∀ loc, loc ≠ output.place → b'.files.at? loc = b.files.at? loc)
        ∧ b'.requests = b.requests) (Mishap b) := by
  have hfiled : ∀ file ∈ files.map fun file => (file.1, file.2.bytes),
      Archive.isDirName file.1 = false := by
    intro file hfile
    obtain ⟨member, hmember, rfl⟩ := List.mem_map.1 hfile
    exact hplain member hmember
  obtain ⟨builder, hadd, hfiles, hnames, hdirs⟩ := Archive.Builder.addFiles_empty hfiled
    (by rw [List.map_map]; exact hnodup)
  rw [writeArchive]
  refine (ends_change_quiet output (·.write output (.raw [])) b).bind fun _ b₁ hb₁ => ?_
  rw [hadd]
  refine (ends_change_quiet output (·.write output (.archive builder.entries)) b₁).mono
    (fun _ b₂ hb₂ => ?_) fun e b' h => ⟨h.1, h.2.trans hb₁.2⟩
  obtain ⟨hfirst, hat₁⟩ := ht.write hb₁.1
  obtain ⟨hsecond, hat₂⟩ := hfirst.plain.write hb₂.1
  refine ⟨⟨builder.entries, FileTree.stat_write hb₂.1, ?_, hnames, fun e he hdir => ?_⟩,
    hsecond.plain, fun loc hne => ?_, hb₂.2.trans hb₁.2⟩
  · rw [List.map_map] at hfiles
    exact hfiles
  · obtain ⟨hdata, file, hfile, hname⟩ := hdirs e he hdir
    obtain ⟨member, hmember, rfl⟩ := List.mem_map.1 hfile
    exact ⟨hdata, member, hmember, hname⟩
  · rw [hat₂, if_neg hne, hat₁, if_neg hne]

-- ── The output ───────────────────────────────────────────────────────────────

/-- Discards the output and writes files there, in the shape of the input. -/
def renew (input output : Path) (files : List (String × Content)) : Act SourceRequest Unit := do
  discardTree output
  createParent output
  if ← ask (·.isDir input) then writeDirectory output files else writeArchive output files

theorem renew_bind {α : Type} (input output : Path) (files : List (String × Content))
    (f : Unit → Act SourceRequest α) :
    renew input output files >>= f = (do
      discardTree output
      createParent output
      let isDirectory ← ask (·.isDir input)
      if isDirectory then writeDirectory output files >>= f
        else writeArchive output files >>= f) := by
  simp only [renew, bind_assoc, Act.ite_bind]

/-- What has been written to an output that was discarded and prepared: files below a directory,
    or an archive. -/
def Filled (t u : FileTree) (input output : Path) (files : List (String × Content)) : Prop :=
  if t.isDir input then Wrote output files (prepared t output) u
  else ∃ entries, u.stat output = .ok (.file (.archive entries)) ∧ IsArchiveOf entries files

/-- The path can be the path of a file inside a directory or an archive. -/
def CanHold (asDirectory : Bool) (path : String) : Prop :=
  if asDirectory then IsInnerPath path else Archive.isDirName path = false

/-- What is read from an input can be written to an output of its shape. -/
theorem canHold_of_filesOf? {t : FileTree} (ht : t.Plain) (horderly : Orderly t) {input : Path}
    {files : List (String × Content)} (hfiles : filesOf? t input = some files) :
    ∀ path ∈ files.map Prod.fst, CanHold (t.isDir input) path := by
  intro path hpath
  obtain ⟨file, hfile, rfl⟩ := List.mem_map.1 hpath
  rw [CanHold]
  by_cases hdir : t.isDir input = true
  · rw [if_pos hdir]
    obtain ⟨rel, hne, hentries, heq, -⟩ :=
      (mem_filesOf?_directory ht horderly hdir hfiles).1 hfile
    refine ⟨rel.map Name.lossy, List.map_eq_nil_iff.not.2 hne, fun text htext => ?_, heq⟩
    obtain ⟨name, hname, rfl⟩ := List.mem_map.1 htext
    exact (hentries name hname).isName_lossy
  · rw [if_neg hdir]
    exact (file_of_filesOf? (Bool.eq_false_iff.2 hdir) hfiles file hfile).1

section Output

variable {t : FileTree} (ht : t.Plain) {input output : Path} (hapart : LieApart input output)
include ht hapart

/-- **Filling a prepared output.** -/
theorem ends_fill {files : List (String × Content)}
    (hnodup : t.isDir input = false → (files.map Prod.fst).Nodup)
    (hpaths : ∀ file ∈ files, CanHold (t.isDir input) file.1) {b : Bench SourceRequest}
    (hb : b.files = prepared t output) :
    Ends (if t.isDir input then writeDirectory output files else writeArchive output files) b
      (fun _ b' => Filled t b'.files input output files ∧ b'.files.Plain
        ∧ KeepsBelow t b'.files input ∧ b'.requests = b.requests) (Mishap b) := by
  obtain ⟨hplain, hkept⟩ := prepared_apart ht hapart
  rw [← hb] at hplain hkept
  simp only [Filled]
  by_cases hdir : t.isDir input = true
  · rw [hdir] at hpaths ⊢
    have hinner : ∀ file ∈ files, IsInnerPath file.1 := hpaths
    simp only [if_true]
    refine (ends_writeDirectory hapart.outputForward hinner hplain).mono
      (fun _ b' hb' => ?_) fun _ _ h => h
    obtain ⟨hwrote, hrequests⟩ := hb'
    refine ⟨hb ▸ hwrote, hwrote.keeping.plain, ?_, hrequests⟩
    refine hkept.trans fun loc hloc => ?_
    obtain ⟨hout, habove, -⟩ := hapart.off hloc
    exact hwrote.off loc hout habove
  · have hdir := Bool.eq_false_iff.2 hdir
    rw [hdir] at hpaths ⊢
    simp only [Bool.false_eq_true, if_false]
    refine (ends_writeArchive hpaths (hnodup hdir) hplain).mono (fun _ b' hb' => ?_)
      fun _ _ h => h
    obtain ⟨hholds, hplain', hother, hrequests⟩ := hb'
    refine ⟨hholds, hplain', hkept.trans fun loc hloc => hother loc ?_, hrequests⟩
    rintro rfl
    exact hapart.inside hloc

/-- **Making the output anew.** The input tells how it is written, and is still there. -/
theorem ends_renew {files : List (String × Content)}
    (hnodup : t.isDir input = false → (files.map Prod.fst).Nodup)
    (hpaths : ∀ file ∈ files, CanHold (t.isDir input) file.1) {node : Node}
    (hstat : t.stat input = .ok node) {b : Bench SourceRequest} (hb : b.files = t) :
    Ends (renew input output files) b
      (fun _ b' => Filled t b'.files input output files ∧ b'.files.stat input = .ok node
        ∧ KeepsBelow t b'.files input ∧ b'.requests = b.requests) (Mishap b) := by
  obtain ⟨hplain, hkept⟩ := prepared_apart ht hapart
  rw [renew]
  refine (ends_discardTree_quiet output b).bind fun _ b₁ hb₁ => ?_
  refine ((ends_createParent_quiet output b₁).mono (fun _ _ h => h) fun e b' h =>
    ⟨h.1, h.2.trans hb₁.2⟩).bind fun _ b₂ hb₂ => ?_
  have hrequests := hb₂.2.trans hb₁.2
  have hprepared : b₂.files = prepared t output := by
    rw [hb₂.1, hb₁.1, hb]
    rfl
  have hsame : b₂.files.isDir input = t.isDir input := by
    rw [FileTree.isDir, FileTree.isDir, hstat, hprepared,
      stat_kept ht hapart hplain hkept hstat]
  refine ends_ask_bind ?_
  rw [hsame]
  refine (ends_fill ht hapart hnodup hpaths hprepared).mono (fun _ b' hb' => ?_)
    fun e b' h => ⟨h.1, h.2.trans hrequests⟩
  obtain ⟨hfilled, hplain', hkept', hrequests'⟩ := hb'
  exact ⟨hfilled, stat_kept ht hapart hplain' hkept' hstat, hkept', hrequests'.trans hrequests⟩

end Output

-- ── What belongs in the output ───────────────────────────────────────────────

/-- The files below a directory are just those that are expected. It need not be there for none. -/
def FilesBelowAre (t : FileTree) (p : Path) (expected : Location → Content → Prop) : Prop :=
  match t.filesBelow p with
  | .ok found => ∀ rel content, (rel, content) ∈ found ↔ expected rel content
  | .error _ => ∀ rel content, ¬ expected rel content

theorem filesBelowAre_congr {t : FileTree} {p : Path} {expected expected' : Location → Content → Prop}
    (h : ∀ rel content, expected rel content ↔ expected' rel content) :
    FilesBelowAre t p expected ↔ FilesBelowAre t p expected' := by
  rw [show expected = expected' from funext fun rel => funext fun content => propext (h rel content)]

/-- What belongs at a location below an output: for every file of the input, the last text for its
    path if it is a unit, and else the file as it is, if resources are passed on. -/
def ExpectedAt (r : SourceRemapper) (t : FileTree) (input : Path) (answers : List SourceFile)
    (rel : Location) (content : Content) : Prop :=
  ∃ old, t.at? (input.place ++ rel) = some (.file old)
    ∧ ((isUnit rel.lossy = true ∧ ∃ text, lastText? answers rel.lossy = some text
        ∧ content = .raw (Text.encodeUtf8 text.toList))
      ∨ (r.settings.passResources = true ∧ isUnit rel.lossy = false ∧ content = old))

/-- The output holds just what belongs there: below a directory each file at the location that it
    has in the input, in an archive the files in the order of their names. -/
def Holds (r : SourceRemapper) (t t' : FileTree) (input output : Path)
    (files : List (String × Content)) (answers : List SourceFile) : Prop :=
  if t.isDir input then FilesBelowAre t' output (r.ExpectedAt t input answers)
  else ∃ out, (out.Pairwise fun a b => compare a.1 b.1 = .lt)
    ∧ (∀ path content, (path, content) ∈ out ↔ r.Expected files answers path content)
    ∧ ∃ entries, t'.stat output = .ok (.file (.archive entries)) ∧ IsArchiveOf entries out

/-- The files have their places below a directory. -/
def Placed (files : List (String × Content)) (rel : Location) (content : Content) : Prop :=
  ∃ names : List String, names ≠ [] ∧ (∀ name ∈ names, IsName name) ∧ rel = names.map .ofText
    ∧ ("/".intercalate names, content) ∈ files

section Below

variable {t : FileTree} (ht : t.Plain) {input output : Path} (hapart : LieApart input output)
  {files : List (String × Content)} (hpaths : ∀ file ∈ files, IsInnerPath file.1) {u : FileTree}
  (hwrote : Wrote output files (prepared t output) u) {found : List (Location × Content)}
  (hfound : u.filesBelow output = .ok found)
include ht hapart hpaths hwrote

include hfound in
/-- A file below a prepared output is one of those that were written, so that its names are
    texts. -/
theorem Wrote.names_of_found {rel : Location} {content : Content} (hfile : (rel, content) ∈ found) :
    ∃ names : List String, names ≠ [] ∧ (∀ name ∈ names, IsName name) ∧ rel = names.map .ofText
      ∧ "/".intercalate names ∈ files.map Prod.fst := by
  have hu := hwrote.keeping.plain
  obtain ⟨hne, hat⟩ := (hu.mem_filesBelow hfound).1 hfile
  obtain ⟨loc, hleads, -⟩ := Outcome.bind_eq_ok.1 hfound
  obtain rfl := (hu.resolve_eq_ok hleads).1
  have hdir : u.stat output = .ok .dir := FileTree.stat_of_resolve hleads
    (hu.dir_above hne (by rw [hat]; exact Option.some_ne_none _))
  by_cases hwritten : ∃ other ∈ files, output.place ++ rel = (output.join other.1).place
  · obtain ⟨other, hother, heq⟩ := hwritten
    obtain ⟨names, hnonempty, hnames, hpath⟩ := hpaths other hother
    rw [hpath, (hapart.outputForward.join hnonempty hnames).2] at heq
    exact ⟨names, hnonempty, hnames, List.append_cancel_left heq,
      hpath ▸ List.mem_map_of_mem hother⟩
  · rw [hwrote.others _ _ fun other hother heq => hwritten ⟨other, hother, heq⟩] at hat
    exact absurd hat (no_file_prepared ht hapart hu hdir (List.prefix_append _ _)
      (fun heq => hne (List.append_right_eq_self.1 heq)) content)

/-- Files with different paths that have been written below a prepared output are all that is
    there. -/
theorem Wrote.filesBelowAre (hnodup : (files.map Prod.fst).Nodup) :
    FilesBelowAre u output (Placed files) := by
  have hu := hwrote.keeping.plain
  have hplaced : ∀ {rel content}, Placed files rel content → rel ≠ []
      ∧ u.at? (output.place ++ rel) = some (.file content) ∧ u.stat output = .ok .dir := by
    rintro rel content ⟨names, hne, hnames, rfl, hfile⟩
    have hthere := hwrote.there hnodup _ hfile
    refine ⟨List.map_eq_nil_iff.not.2 hne, ?_,
      hu.stat_above hapart.outputForward hapart.output_ne_nil hne hnames hthere⟩
    rw [← (hapart.outputForward.join hne hnames).2]
    exact (hu.stat_file hthere).2
  rw [FilesBelowAre]
  cases hfound : u.filesBelow output with
  | error fault =>
      -- with a file the output would be a directory
      intro rel content h
      obtain ⟨-, -, hdir⟩ := hplaced h
      obtain ⟨loc, hleads, hat⟩ := FileTree.stat_eq_ok hdir
      rw [FileTree.filesBelow_eq hleads (by rw [hat]; exact Option.some_ne_none _)] at hfound
      cases hfound
  | ok found =>
      refine fun rel content => ⟨fun hfile => ?_, fun h => ?_⟩
      · obtain ⟨names, hne, hnames, rfl, hmem⟩ :=
          hwrote.names_of_found ht hapart hpaths hfound hfile
        obtain ⟨⟨path, other⟩, hother, rfl⟩ := List.mem_map.1 hmem
        -- the file that was written there is the one that is there
        have hat := ((hu.mem_filesBelow hfound).1 hfile).2
        rw [(hplaced ⟨names, hne, hnames, rfl, hother⟩).2.1] at hat
        obtain rfl := Node.file.inj (Option.some.inj hat)
        exact ⟨names, hne, hnames, rfl, hother⟩
      · obtain ⟨hne, hat, -⟩ := hplaced h
        exact (hu.mem_filesBelow hfound).2 ⟨hne, hat⟩

end Below

section Belongs

variable {r : SourceRemapper} {t : FileTree} (ht : t.Plain) (horderly : Orderly t)
  {input output : Path} {files : List (String × Content)} (hfiles : filesOf? t input = some files)
include ht horderly hfiles

/-- A file of the directory is read, with its path as it is shown. -/
theorem mem_of_directory (hdir : t.isDir input = true) {rel : Location} {content : Content}
    (hat : t.at? (input.place ++ rel) = some (.file content)) :
    rel ≠ [] ∧ (∀ name ∈ rel, name.IsEntry) ∧ (rel.lossy, content) ∈ files := by
  have hne : rel ≠ [] := by
    rintro rfl
    obtain ⟨loc, hleads, hat'⟩ := FileTree.stat_eq_ok (FileTree.stat_of_isDir hdir)
    rw [List.append_nil, ← (ht.resolve_eq_ok hleads).1, hat'] at hat
    cases hat
  have hentries : ∀ name ∈ rel, name.IsEntry := fun name hname =>
    horderly.names _ (by rw [hat]; exact Option.some_ne_none _) name (List.mem_append_right _ hname)
  exact ⟨hne, hentries, (mem_filesOf?_directory ht horderly hdir hfiles).2
    ⟨rel, hne, hentries, rfl, hat⟩⟩

/-- What belongs in a directory has its place there, where the names are texts. -/
theorem expectedAt_iff (hdir : t.isDir input = true) (hspelled : r.Spelled t input)
    {answers : List SourceFile} {out : List (String × Content)}
    (hout : ∀ path content, (path, content) ∈ out ↔ r.Expected files answers path content)
    (rel : Location) (content : Content) :
    r.ExpectedAt t input answers rel content ↔ Placed out rel content := by
  have hback : ∀ {names : List String} {old : Content}, names ≠ [] →
      (∀ name ∈ names, IsName name) → r.carriesOver ("/".intercalate names) = true →
      ("/".intercalate names, old) ∈ files →
      t.at? (input.place ++ names.map .ofText) = some (.file old) := by
    intro names old hne hnames hcarried hmem
    obtain ⟨rel, hrel, hentries, hpath, hat⟩ :=
      (mem_filesOf?_directory ht horderly hdir hfiles).1 hmem
    have htexts := hspelled rel old hdir hat (hpath ▸ hcarried)
    rwa [← eq_map_ofText hrel (fun name hname => ⟨hentries name hname, htexts name hname⟩) hne
      hnames hpath.symm]
  constructor
  · rintro ⟨old, hat, h⟩
    obtain ⟨hne, hentries, hmem⟩ := mem_of_directory ht horderly hfiles hdir hat
    have hcarried : r.carriesOver rel.lossy = true := by
      rw [carriesOver, Bool.or_eq_true]
      exact h.imp And.left And.left
    refine ⟨rel.map Name.lossy, List.map_eq_nil_iff.not.2 hne, List.forall_mem_map.2
      fun name hname => (hentries name hname).isName_lossy,
      (Name.map_ofText_map_lossy (hspelled rel old hdir hat hcarried)).symm, (hout _ _).2 ?_⟩
    rcases h with ⟨hunit, htext⟩ | ⟨hpass, hunit, rfl⟩
    · exact .inl ⟨hunit, List.mem_map_of_mem hmem, htext⟩
    · exact .inr ⟨hpass, hunit, hmem⟩
  · rintro ⟨names, hne, hnames, rfl, hmem⟩
    have hlossy : Location.lossy (names.map .ofText) = "/".intercalate names := by
      rw [Location.lossy, Name.map_lossy_map_ofText]
    rw [ExpectedAt, hlossy]
    rcases (hout _ _).1 hmem with ⟨hunit, hpath, htext⟩ | ⟨hpass, hunit, hfile⟩
    · obtain ⟨⟨path, old⟩, hfile, rfl⟩ := List.mem_map.1 hpath
      exact ⟨old, hback hne hnames (by rw [carriesOver, hunit, Bool.true_or]) hfile,
        .inl ⟨hunit, htext⟩⟩
    · exact ⟨content, hback hne hnames (by rw [carriesOver, hpass, Bool.or_true]) hfile,
        .inr ⟨hpass, hunit, rfl⟩⟩

/-- Something belongs at the location of every file that is carried over, if all units have been
    answered. -/
theorem exists_expectedAt (hdir : t.isDir input = true) (htexts : UnitsAreTexts files)
    {answers : List SourceFile} {sources : List (String × Content)}
    (hmatch : matchAnswers (unitsOf files) answers = .ok sources) {rel : Location} {old : Content}
    (hat : t.at? (input.place ++ rel) = some (.file old))
    (hcarried : r.carriesOver rel.lossy = true) :
    ∃ content, r.ExpectedAt t input answers rel content := by
  by_cases hunit : isUnit rel.lossy = true
  · have hspec := matchAnswers_spec (unitsOf files) answers
    rw [hmatch] at hspec
    have hmem := (mem_of_directory ht horderly hfiles hdir hat).2.2
    have hpath : rel.lossy ∈ (unitsOf files).map SourceFile.path := by
      rw [paths_unitsOf htexts]
      exact List.mem_filter.2 ⟨List.mem_map_of_mem hmem, hunit⟩
    obtain ⟨text, htext⟩ := Option.ne_none_iff_exists'.1
      fun hnone => lastText?_eq_none.1 hnone ((hspec.1.2 _).2 hpath)
    exact ⟨_, old, hat, .inl ⟨hunit, text, htext, rfl⟩⟩
  · have hpass := (Bool.or_eq_true _ _ ▸ hcarried).resolve_left hunit
    exact ⟨old, old, hat, .inr ⟨hpass, Bool.eq_false_iff.2 hunit, rfl⟩⟩

/-- **The output holds what belongs there exactly if the names are texts** of all that is carried
    over from a directory. -/
theorem holds_iff (hapart : LieApart input output) (htexts : UnitsAreTexts files)
    {answers : List SourceFile} {sources : List (String × Content)}
    (hmatch : matchAnswers (unitsOf files) answers = .ok sources) {u : FileTree}
    (hfilled : Filled t u input output
      (merged r.settings.passResources sources (resourcesOf files)))
    (hfits : ∀ file ∈ merged r.settings.passResources sources (resourcesOf files),
      CanHold (t.isDir input) file.1) :
    r.Holds t u input output files answers ↔ r.Spelled t input := by
  have hout : ∀ path content,
      (path, content) ∈ merged r.settings.passResources sources (resourcesOf files)
        ↔ r.Expected files answers path content := fun _ _ => mem_merged_iff htexts hmatch r
  rw [Holds]
  rw [Filled] at hfilled
  by_cases hdir : t.isDir input = true
  · rw [if_pos hdir] at hfilled ⊢
    have hinner : ∀ file ∈ merged r.settings.passResources sources (resourcesOf files),
        IsInnerPath file.1 := by
      rw [hdir] at hfits
      exact hfits
    constructor
    · intro hholds rel old _ hat hcarried
      -- something belongs there, so something was written there
      obtain ⟨content, hexpected⟩ :=
        exists_expectedAt ht horderly hfiles hdir htexts hmatch hat hcarried
      rw [FilesBelowAre] at hholds
      cases hfound : u.filesBelow output with
      | error fault =>
          rw [hfound] at hholds
          exact absurd hexpected (hholds rel content)
      | ok found =>
          rw [hfound] at hholds
          obtain ⟨names, -, -, rfl, -⟩ := hfilled.names_of_found ht hapart hinner hfound
            ((hholds rel content).2 hexpected)
          exact List.forall_mem_map.2 fun text _ => Name.isText_ofText text
    · intro hspelled
      rw [filesBelowAre_congr (expectedAt_iff ht horderly hfiles hdir hspelled hout)]
      exact hfilled.filesBelowAre ht hapart hinner
        (nodup_merged htexts hmatch r (nodup_carried ht horderly hspelled hfiles))
  · rw [if_neg hdir] at hfilled ⊢
    have hnodup := nodup_archive horderly (Bool.eq_false_iff.2 hdir) hfiles
    exact ⟨fun _ _ _ hdir' => absurd hdir' hdir, fun _ =>
      ⟨_, increasing_merged htexts hmatch r (hnodup.filter _), hout, hfilled⟩⟩

end Belongs

-- ── The run ──────────────────────────────────────────────────────────────────

/-- What the tool is asked. -/
def requestFor (table : Naming.RenameTable) (input : Path) (classpath : List Path)
    (files : List (String × Content)) : SourceRequest :=
  { table, classpath := classpathFor input classpath, files := unitsOf files }

/-- What a run is about that can be carried out: a plain tree, paths that lie apart, an output
    that is not there or has the shape of the input, a class path that is there, an input that
    can be read and whose units are texts, and a tool that answers. -/
structure Carried (r : SourceRemapper) (table : Naming.RenameTable) (input output : Path)
    (classpath : List Path) (t : FileTree) (files : List (String × Content))
    (answers : List SourceFile) : Prop where
  plain : t.Plain
  orderly : Orderly t
  apart : LieApart input output
  shape : t.pathExists output = true → t.isDir output = t.isDir input
  entries : ∀ entry ∈ classpath, t.pathExists entry = true
  read : filesOf? t input = some files
  texts : UnitsAreTexts files
  asked : r.tool.run (requestFor table input classpath files) = .ok answers

/-- Nothing has changed at or below the input. -/
structure KeepsInput (input : Path) (t t' : FileTree) : Prop where
  leads : t'.stat input = t.stat input
  below : KeepsBelow t t' input

/-- No two units have one path, and the answers have the paths of the units. -/
def Answered (answers units : List SourceFile) : Prop :=
  (units.map SourceFile.path).Nodup ∧ SamePaths answers units

/-- What a run tells when it succeeds. -/
def told (r : SourceRemapper) (output : Path) (files : List (String × Content)) :
    SourceOutcome where
  output := output
  sources := (unitsOf files).length
  resources := if r.settings.passResources then (resourcesOf files).length else 0

section Run

variable {r : SourceRemapper} {table : Naming.RenameTable} {input output : Path}
  {classpath : List Path} {b : Bench SourceRequest} {files : List (String × Content)}
  {answers : List SourceFile}

/-- What a run does with the answers for its units. -/
def finish (r : SourceRemapper) (table : Naming.RenameTable) (input output : Path)
    (files : List (String × Content)) (answers : List SourceFile) :
    Act SourceRequest SourceOutcome :=
  match matchAnswers (unitsOf files) answers with
  | .error fault =>
    throw (.toolFailure r.tool.name input output table.direction fault.message)
  | .ok sources => do
    renew input output (merged r.settings.passResources sources (resourcesOf files))
    return r.told output files

/-- The run has asked its tool for the units. -/
def asking (b : Bench SourceRequest) (request : SourceRequest) : Bench SourceRequest :=
  { b with requests := b.requests ++ [request] }

theorem run_produce (h : Carried r table input output classpath b.files files answers) :
    (r.produce table input output classpath).run.run b
      = (r.finish table input output files answers).run.run
          (asking b (requestFor table input classpath files)) := by
  have hresolve : (resolveClasspath input [] classpath).run.run b
      = (.ok (classpathFor input classpath), b) := by
    rw [run_resolveClasspath, firstMissing?_of_exist h.entries input]
  rw [produce, Outcome.run_bind_of_ok hresolve]
  rw [Outcome.run_bind_of_ok (x := ask (·.isDir input)) rfl]
  dsimp only
  rw [Act.ite_bind, Outcome.run_bind_of_ok (run_readFiles h.read), sortOut_of_texts h.texts]
  dsimp only
  rw [pure_bind, run_modify_bind]
  rw [show r.tool.run { table, classpath := classpathFor input classpath, files := unitsOf files }
    = .ok answers from h.asked]
  dsimp only
  rw [pure_bind, finish, asking, requestFor]
  cases hmatch : matchAnswers (unitsOf files) answers with
  | error fault => rfl
  | ok sources =>
      dsimp only
      rw [pure_bind]
      have hlength : sources.length = (unitsOf files).length := by
        rw [← List.length_map (f := Prod.fst), matchAnswers_names hmatch, List.length_map]
      rw [renew_bind, told, ← hlength]
      cases r.settings.passResources <;> rfl

/-- The answers decide whether a run fails because of the tool. All other failures are at a file. -/
theorem ends_finish (h : Carried r table input output classpath b.files files answers) :
    Ends (r.finish table input output files answers) b
      (fun outcome b' => Answered answers (unitsOf files) ∧ outcome = r.told output files
        ∧ KeepsInput input b.files b'.files
        ∧ (r.Holds b.files b'.files input output files answers ↔ r.Spelled b.files input)
        ∧ b'.requests = b.requests)
      (fun e b' => (e.isToolFailure = true ↔ ¬ Answered answers (unitsOf files))
        ∧ b'.requests = b.requests) := by
  have hspec := matchAnswers_spec (unitsOf files) answers
  rw [finish]
  cases hmatch : matchAnswers (unitsOf files) answers with
  | error fault =>
      rw [hmatch] at hspec
      exact ends_throw ⟨⟨fun _ => hspec, fun _ => rfl⟩, rfl⟩
  | ok sources =>
      rw [hmatch] at hspec
      have hdistinct : b.files.isDir input = false →
          ((merged r.settings.passResources sources (resourcesOf files)).map Prod.fst).Nodup :=
        fun hdir => nodup_merged h.texts hmatch r ((nodup_archive h.orderly hdir h.read).filter _)
      have hfits : ∀ file ∈ merged r.settings.passResources sources (resourcesOf files),
          CanHold (b.files.isDir input) file.1 := by
        intro file hfile
        refine canHold_of_filesOf? h.plain h.orderly h.read _ ?_
        exact names_of_output (sortOut_of_texts h.texts) hmatch r.settings.passResources file hfile
      obtain ⟨node, hstat⟩ := exists_of_filesOf? h.read
      have hrenew := ends_renew h.plain h.apart hdistinct hfits hstat (b := b) rfl
      refine Ends.bind (hrenew.mono (fun _ _ h => h) ?_) fun _ b' hb' => ends_pure ?_
      · intro e b' hmishap
        refine ⟨?_, hmishap.2⟩
        rw [hmishap.1]
        exact ⟨fun hbad => absurd hbad Bool.false_ne_true, fun hdiffer => absurd hspec.1 hdiffer⟩
      · obtain ⟨hfilled, hleads, hkept, hrequests⟩ := hb'
        exact ⟨hspec.1, rfl, ⟨hleads.trans hstat.symm, hkept⟩,
          holds_iff h.plain h.orderly h.read h.apart h.texts hmatch hfilled hfits, hrequests⟩

/-- A run asks the tool once, and fails because of it exactly when the answers are not for the
    units. -/
theorem ends_produce (h : Carried r table input output classpath b.files files answers) :
    Ends (r.produce table input output classpath) b
      (fun outcome b' => Answered answers (unitsOf files) ∧ outcome = r.told output files
        ∧ KeepsInput input b.files b'.files
        ∧ (r.Holds b.files b'.files input output files answers ↔ r.Spelled b.files input)
        ∧ b'.requests = b.requests ++ [requestFor table input classpath files])
      (fun e b' => (e.isToolFailure = true ↔ ¬ Answered answers (unitsOf files))
        ∧ b'.requests = b.requests ++ [requestFor table input classpath files]) :=
  ⟨by
    rw [run_produce h]
    exact (ends_finish (b := asking b (requestFor table input classpath files)) h).holds⟩

/-- The run has told what it does. -/
def telling (b : Bench SourceRequest) (table : Naming.RenameTable) (input output : Path) :
    Bench SourceRequest :=
  let source := input.text
  let dest := output.text
  let names := table.direction.text
  { b with log := b.log ++
      [{ level := .info, message := s!":remapping sources {source} ({names}) -> {dest}" }] }

theorem run_runJob (b : Bench SourceRequest) :
    (r.runJob table input output classpath).run.run b
      = (orElseDo (r.produce table input output classpath) fun e => do
          let source := input.text
          let reason := e.message
          report .warn s!"Source remap of {source} failed: {reason}"
          discardTree output
          let _ ← invalidateCache).run.run (telling b table input output) := rfl

theorem ends_runJob (h : Carried r table input output classpath b.files files answers) :
    Ends (r.runJob table input output classpath) b
      (fun outcome b' => Answered answers (unitsOf files) ∧ outcome = r.told output files
        ∧ KeepsInput input b.files b'.files
        ∧ (r.Holds b.files b'.files input output files answers ↔ r.Spelled b.files input)
        ∧ b'.requests = b.requests ++ [requestFor table input classpath files])
      (fun e b' => (e.isToolFailure = true ↔ ¬ Answered answers (unitsOf files))
        ∧ b'.requests = b.requests ++ [requestFor table input classpath files]) := by
  have hproduce := ends_produce (b := telling b table input output) h
  refine ⟨?_⟩
  rw [run_runJob]
  refine (hproduce.orElseDo fun e b₂ hb₂ => ?_).holds
  -- cleaning up neither asks the tool nor changes the error
  refine (ends_report _ _ b₂).bind fun _ b₃ hb₃ => ?_
  refine (ends_discardTree_quiet output b₃).bind fun _ b₄ hb₄ => ?_
  refine ends_bind_run (x := invalidateCache) rfl (ends_pure ⟨hb₂.1, ?_⟩)
  exact hb₄.2.trans (hb₃.requests.trans hb₂.2)

/-- A run that can be carried out is one that is neither refused nor in place. -/
theorem run_remapWith (h : Carried r table input output classpath b.files files answers) :
    (r.remapWith table input output classpath).run.run b
      = (r.runJob table input output classpath).run.run b := by
  obtain ⟨node, hstat⟩ := exists_of_filesOf? h.read
  have hexists : b.files.pathExists input = true := by rw [FileTree.pathExists, hstat]
  have hshape : ¬ (b.files.pathExists output
      && b.files.isDir output != b.files.isDir input) = true := by
    intro hdiffer
    obtain ⟨hthere, hdiffer⟩ := Bool.and_eq_true_iff.1 hdiffer
    exact bne_iff_ne.1 hdiffer (h.shape hthere)
  have hplace : b.files.samePlace input output = false :=
    h.plain.samePlace_forward h.apart.outputForward hstat
      fun heq => h.apart.outside (heq ▸ List.prefix_refl _)
  rw [remapWith, run_get_bind]
  dsimp only
  rw [hexists, Bool.not_true, if_neg Bool.false_ne_true, if_neg hshape, hplace, Bool.not_false,
    if_pos rfl]

/-- A run that can be carried out succeeds as soon as it can finish. -/
theorem run_remapWith_of_finish
    (h : Carried r table input output classpath b.files files answers) {outcome : SourceOutcome}
    {b' : Bench SourceRequest} (hfinish : (r.finish table input output files answers).run.run
      (asking (telling b table input output) (requestFor table input classpath files))
        = (.ok outcome, b')) :
    (r.remapWith table input output classpath).run.run b = (.ok outcome, b') := by
  rw [run_remapWith h, run_runJob, run_orElseDo,
    run_produce (b := telling b table input output) h, hfinish]

/-- Where the names are texts, no two units have one path. -/
theorem Carried.answered_iff (h : Carried r table input output classpath b.files files answers)
    (hspelled : r.Spelled b.files input) :
    Answered answers (unitsOf files) ↔ SamePaths answers (unitsOf files) := by
  refine and_iff_right ?_
  have hunits : (files.map Prod.fst).filter isUnit
      = ((files.map Prod.fst).filter r.carriesOver).filter isUnit := by
    rw [List.filter_filter]
    refine List.filter_congr fun path _ => ?_
    rw [carriesOver]
    cases isUnit path <;> rfl
  rw [paths_unitsOf h.texts, hunits]
  exact (nodup_carried h.plain h.orderly hspelled h.read).filter _

end Run

/-- A directory with a unit and a resource in it, an archive with a resource, and an older
    output. -/
def sourceTree : List (Location × Node) :=
  [(["in"], .dir), (["in", "A.java"], .file (.raw [97])), (["in", "x"], .dir),
    (["in", "x", "n"], .file (.raw [1])), (["in.jar"], .file (.archive [⟨"x/n", [1]⟩])),
    (["out"], .dir), (["out", "old"], .file (.raw [2]))]

/-- A remapper whose tool gives every unit back as it is, and then with another text. -/
def rewording (passResources : Bool) : SourceRemapper where
  tool :=
    { name := "rewording"
      run := fun request =>
        .ok (request.files ++ request.files.map fun file => { file with text := "b" }) }
  settings := { passResources }

/-- A remapper whose tool gives nothing back. -/
def forgetting : SourceRemapper :=
  { tool := { name := "forgetting", run := fun _ => .ok [] }, settings := {} }

/-- The names that are changed in the runs on the tree. -/
def noNames : Naming.RenameTable := { direction := { source := "a", dest := "b" } }

theorem sourceTree_carried {r : SourceRemapper} {input output : Path}
    {files : List (String × Content)} {answers : List SourceFile} (hapart : LieApart input output)
    (hshape : (benchOf sourceTree).files.pathExists output = true →
      (benchOf sourceTree).files.isDir output = (benchOf sourceTree).files.isDir input)
    (hread : filesOf? (benchOf sourceTree).files input = some files) (htexts : UnitsAreTexts files)
    (hasked : r.tool.run (requestFor noNames input [] files) = .ok answers) :
    Carried r noNames input output [] (benchOf sourceTree).files files answers :=
  ⟨FileTree.plain_of_nodes (by decide +kernel), orderly_of_nodes (by decide +kernel), hapart,
    hshape, (fun _ h => nomatch h), hread, htexts, hasked⟩

/-- A directory with two resources whose names are no texts and are shown alike. -/
def alikeTree : List (Location × Node) :=
  [(["in"], .dir), (["in", ⟨[0xFE, 0x2E, 0x74]⟩], .file (.raw [1])),
    (["in", ⟨[0xFF, 0x2E, 0x74]⟩], .file (.raw [2]))]

/-- The files of the directory, as they are read. -/
def alikeFiles : List (String × Content) := [("\uFFFD.t", .raw [1]), ("\uFFFD.t", .raw [2])]

theorem alikeTree_carried :
    Carried (rewording true) noNames ⟨"in"⟩ ⟨"out"⟩ [] (benchOf alikeTree).files alikeFiles [] :=
  ⟨FileTree.plain_of_nodes (by decide +kernel), orderly_of_nodes (by decide +kernel),
    by decide +kernel, fun h => absurd h (by decide +kernel), (fun _ h => nomatch h),
    by decide +kernel, by decide +kernel, rfl⟩

theorem finish_alikeFiles : (rewording true).finish noNames ⟨"in"⟩ ⟨"out"⟩ alikeFiles []
    = (do
      renew ⟨"in"⟩ ⟨"out"⟩ alikeFiles
      return { output := ⟨"out"⟩, sources := 0, resources := 2 }) := by
  have hmatch : matchAnswers (unitsOf alikeFiles) [] = .ok [] := by decide +kernel
  have hresources : resourcesOf alikeFiles = alikeFiles := by decide +kernel
  have hmerged : merged true [] alikeFiles = alikeFiles :=
    List.mergeSort_of_pairwise (by decide +kernel)
  have htold : (rewording true).told ⟨"out"⟩ alikeFiles
      = { output := ⟨"out"⟩, sources := 0, resources := 2 } := by decide +kernel
  rw [finish, hmatch, htold, hresources]
  dsimp only
  rw [show (rewording true).settings.passResources = true from rfl, hmerged]

/-- The run on the directory, from where its tool has answered. -/
def alikeEnd : Except Error SourceOutcome × Bench SourceRequest :=
  ((rewording true).finish noNames ⟨"in"⟩ ⟨"out"⟩ alikeFiles []).run.run
    (asking (telling (benchOf alikeTree) noNames ⟨"in"⟩ ⟨"out"⟩)
      (requestFor noNames ⟨"in"⟩ [] alikeFiles))

theorem alikeEnd_checks :
    alikeEnd.1.toOption = some { output := ⟨"out"⟩, sources := 0, resources := 2 }
    ∧ (alikeEnd.2.files.filesBelow ⟨"out"⟩).toOption = some [([.ofText "\uFFFD.t"], .raw [2])] := by
  rw [alikeEnd, finish_alikeFiles]
  decide +kernel

end SourceRemapper

end Nomenclator.Remap
