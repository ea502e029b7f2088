import Nomenclator.Proofs.Files.Reach
import Nomenclator.Proofs.Remap.InPlace

/-! # Delivery — what is read at the output of a run that has succeeded

    The tool writes a file by one path, the sidecar is saved beside it, and then the
    output is read.  Where the output stands for the input, the path that is written
    is that of the input, and the path that is read is another one.

    * `Sidecar.sites` — what saving a sidecar may change;
    * `Reaches` — the path that is read leads to what is written, and no site is on
      its way.  A run checks neither; in a plain tree both are as they should be
      (`reaches_of_plain`);
    * `remap_delivers` — under this condition the output is what the tool wrote.
      The runs at the end do not deliver it. -/

namespace Nomenclator.Remap

open Files Act

-- ── Saving ───────────────────────────────────────────────────────────────────

namespace Sidecar

/-- The locations that change when a sidecar is saved: those that the sidecar and its temporary
    file name, and that to which the latter is written. None of them is a directory. -/
def sites (t : FileTree) (output : Path) : List Location :=
  ([t.entryAt (pathOf output), t.entryAt (temporaryPathOf output),
    t.resolve .place (temporaryPathOf output)].filterMap Except.toOption).filter
      fun loc => t.at? loc ≠ some .dir

theorem mem_sites {t : FileTree} {output : Path} {loc : Location} :
    loc ∈ sites t output ↔ (t.entryAt (pathOf output) = .ok loc
      ∨ t.entryAt (temporaryPathOf output) = .ok loc
      ∨ t.resolve .place (temporaryPathOf output) = .ok loc) ∧ t.at? loc ≠ some .dir := by
  have hok : ∀ found : Except IoFault Location, found.toOption = some loc ↔ found = .ok loc := by
    intro found
    cases found <;> simp [Except.toOption]
  simp only [sites, List.mem_filter, List.mem_filterMap, List.mem_cons, List.not_mem_nil, or_false,
    exists_eq_or_imp, exists_eq_left, hok, decide_eq_true_eq]

/-- The sites are the same in trees in which all paths lead to the same locations. -/
theorem sites_subset {t u : FileTree} (h : t.KeepsWays u) (output : Path) :
    sites u output ⊆ sites t output := by
  intro loc hloc
  obtain ⟨hwhere, hdir⟩ := mem_sites.1 hloc
  refine mem_sites.2 ⟨?_, fun hat => hdir (h.dir hat)⟩
  exact hwhere.imp h.symm.entryAt (Or.imp h.symm.entryAt h.symm.resolve)

/-- Saving a sidecar changes nothing but its sites and what is below them. -/
theorem at?_save {t u : FileTree} {output : Path} {s : Sidecar}
    (hsave : save t output s = (.ok (), u)) {loc : Location}
    (hoff : ∀ site ∈ sites t output, FileTree.isWithin site loc = false) :
    u.at? loc = t.at? loc := by
  rw [save] at hsave
  cases hwrite : t.writeText (temporaryPathOf output) s.render with
  | error fault => rw [hwrite] at hsave; cases hsave
  | ok mid =>
  rw [hwrite] at hsave
  dsimp only at hsave
  cases hrename : mid.rename (temporaryPathOf output) (pathOf output) with
  | error fault => rw [hrename] at hsave; cases hsave
  | ok v =>
  rw [hrename] at hsave
  obtain rfl : v = u := congrArg Prod.snd hsave
  have hways := FileTree.KeepsWays.write hwrite
  obtain ⟨entry, there, hentry, hlook, hthere, -⟩ :=
    FileTree.entry_of_stat (FileTree.stat_write hwrite)
  obtain ⟨temporary, htemporary, hnil, hends, rfl⟩ := FileTree.endsAt_of_write hwrite
  have hmid : (t.set temporary (.file (.raw (Text.encodeUtf8 s.render.toList)))).at? loc
      = t.at? loc := by
    rw [FileTree.at?_set_of_ne_nil t hnil, if_neg]
    rintro rfl
    have hsite : loc ∈ sites t output := by
      refine mem_sites.2 ⟨.inr (.inr htemporary), ?_⟩
      rcases hends with hnone | ⟨content, hfile⟩
      · rw [hnone]
        exact (Option.some_ne_none _).symm
      · rw [hfile]
        intro hdir
        cases hdir
    have hself := hoff loc hsite
    rw [FileTree.isWithin_self] at hself
    cases hself
  obtain ⟨src, dst, node, htests, ⟨-, rfl⟩ | ⟨hne, -, rfl⟩⟩ := FileTree.rename_inv hrename
  · exact hmid
  obtain rfl : entry = src := Except.ok.inj (hentry.symm.trans htests.sourceAt)
  obtain rfl : there = node := Option.some.inj (Except.ok.inj (hlook.symm.trans htests.found))
  have hsrc : entry ∈ sites t output := by
    refine mem_sites.2 ⟨.inr (.inl (hways.symm.entryAt htests.sourceAt)), fun hdir => hthere ?_⟩
    exact Option.some.inj ((FileTree.lookUp_eq_ok hlook).symm.trans (hways.dir hdir))
  have hdst : dst ∈ sites t output := by
    refine mem_sites.2 ⟨.inl (hways.symm.entryAt htests.destAt), fun hdir => ?_⟩
    rw [FileTree.rename_onto_dir htests hne hthere (hways.dir hdir)] at hrename
    cases hrename
  rw [FileTree.at?_move_of_outside _ (hoff dst hdst), FileTree.at?_remove, if_neg, hmid]
  rw [hoff entry hsrc]
  rintro ⟨hwithin, -⟩
  cases hwithin

end Sidecar

-- ── Reading what was written ─────────────────────────────────────────────────

/-- If a file can be put by the first path, the second path leads to it, and the sidecar of the
    first is saved away from the trail of the second. -/
def Reaches (t : FileTree) (written output : Path) : Prop :=
  ∀ loc ∈ (t.resolve .place written).toOption, t.resolve .target output = .ok loc
    ∧ Apart (Sidecar.sites t written) (t.trailOf .target output).all

instance (t : FileTree) (written output : Path) : Decidable (Reaches t written output) :=
  inferInstanceAs (Decidable (∀ loc ∈ (t.resolve .place written).toOption,
    t.resolve .target output = .ok loc
      ∧ Apart (Sidecar.sites t written) (t.trailOf .target output).all))

theorem Reaches.stat {t left u : FileTree} {written output : Path} {content : Content} {s : Sidecar}
    (h : Reaches t written output) (hwrite : t.write written content = .ok left)
    (hsave : Sidecar.save left written s = (.ok (), u)) :
    u.stat output = .ok (.file content) := by
  have hways := FileTree.KeepsWays.write hwrite
  obtain ⟨loc, hloc, hnil, -, rfl⟩ := FileTree.endsAt_of_write hwrite
  obtain ⟨hleads, hapart⟩ := h loc (by rw [hloc]; rfl)
  have hsame : ∀ l ∈ (t.trailOf .target output).all,
      u.at? l = (t.set loc (.file content)).at? l := fun l hl =>
    Sidecar.at?_save hsave fun site hsite =>
      hapart site (Sidecar.sites_subset hways written hsite) l hl
  refine FileTree.stat_of_resolve (FileTree.resolve_keeps (fun l hl => ?_) hleads) ?_
  · rw [FileTree.KeepsWay, FileTree.EndsAt, FileTree.EndsAt, hsame l hl]
    exact hways l
  · rw [hsame loc (FileTree.mem_trail_of_resolve hleads), FileTree.at?_set_of_ne_nil t hnil,
      if_pos rfl]

/-- In a plain tree the sidecar is saved beside the output, where no path to the output goes. -/
theorem reaches_of_plain {t : FileTree} (h : t.Plain) {written output : Path}
    (hleads : ∀ loc, t.resolve .place written = .ok loc → t.resolve .target output = .ok loc) :
    Reaches t written output := by
  intro loc hloc
  have hplace : t.resolve .place written = .ok loc := by
    cases hresolve : t.resolve .place written with
    | ok found =>
        rw [hresolve] at hloc
        rw [Option.some.inj hloc]
    | error fault =>
        rw [hresolve] at hloc
        cases hloc
  refine ⟨hleads loc hplace, fun site hsite l hl => Bool.eq_false_iff.2 fun hin => ?_⟩
  obtain ⟨hwhere, hdir⟩ := Sidecar.mem_sites.1 hsite
  rcases h.dir_of_mem_trail (hleads loc hplace) hl with rfl | hat
  swap
  · exact hdir (h.dir_of_within hin hat)
  obtain ⟨rest, rfl⟩ := FileTree.isWithin_iff.1 hin
  by_cases hrest : rest = []
  · -- the file that is written is neither the sidecar nor its temporary file
    rw [hrest, List.append_nil] at hplace
    have hwrite : t.write written (.raw []) = .ok (t.set site (.file (.raw []))) := by
      refine Outcome.bind_eq_ok.2 ⟨site, hplace, ?_⟩
      cases hat : t.at? site with
      | none => rfl
      | some node =>
          cases node with
          | dir => exact absurd hat hdir
          | file _ => rfl
          | link _ => rfl
    have hoff := OffSidecar.self (FileTree.namesFile_of_stat (FileTree.stat_write hwrite))
    have hsite := (h.resolve_eq_ok hplace).1
    rcases hwhere with hentry | hentry | htemporary
    · exact hoff.sidecar
        (hsite.symm.trans ((h.entryAt_eq_ok hentry).2 (Sidecar.endsInSlash_pathOf written)))
    · have hslash := Sidecar.endsInSlash_temporaryPathOf written
      exact hoff.temporary (hsite.symm.trans ((h.entryAt_eq_ok hentry).2 hslash))
    · exact hoff.temporary (hsite.symm.trans (h.resolve_eq_ok htemporary).1)
  · have hparent := (h.resolve_eq_ok hplace).2
    rw [List.dropLast_append_of_ne_nil hrest] at hparent
    exact hdir (h.dir_of_within (FileTree.isWithin_iff.2 (List.prefix_append _ _)) hparent)

-- ── The run ──────────────────────────────────────────────────────────────────

/-- Where the tool succeeds, it has written a file to the output of its request, and has done
    nothing else. -/
def Tool.Fulfils (tool : Tool) : Prop :=
  ∀ (request : Request) (t : FileTree), (tool.run request t).1 = .ok () →
    ∃ content, t.write request.output content = .ok (tool.run request t).2

namespace Remapper

variable (r : Remapper) (catalog : Naming.Catalog)

/-- In a run from the first bench to the second the tool was called once. It was to write by
    this path in this tree, it succeeded, and then the sidecar was saved. -/
structure CalledOnce (found : FileTree) (written : Path) (b b' : Bench Request) (call : Call) :
    Prop where
  remapper : call.remapper = r
  found : call.found = found
  output : call.request.output = written
  result : call.result = .ok ()
  saved : ∃ s, Sidecar.save call.left written s = (.ok (), b'.files)
  requests : b'.requests = b.requests ++ [call.request]

theorem Traced.calledOnce {r : Remapper} {job : Job} {classpath : List Path} {inputDigest : String}
    {target : Target} {layers : List Layer} {m b b' : Bench Request} {outcome : Outcome}
    {call : Call} (h : r.Traced job classpath inputDigest target layers m (outcome, some call) b')
    (hrequests : b'.requests = b.requests ++ [call.request]) :
    r.CalledOnce (prepared m.files target.output) target.output b b' call := by
  obtain ⟨-, hremapper, hrequest, hfound, hresult, -, hsaved, hfiles⟩ := h
  exact ⟨hremapper, hfound, by rw [hrequest]; rfl, hresult, ⟨_, Prod.ext hsaved hfiles.symm⟩,
    hrequests⟩

/-- A target is taken again, or it is made. -/
theorem ends_makeTarget_made (job : Job) (classpath : List Path) (inputDigest : String)
    (force : Bool) (target : Target) (b : Bench Request) :
    Ends (r.makeTarget catalog job classpath inputDigest force target) b
      (fun outcome b' => outcome.cached = false →
        ∃ call, r.CalledOnce (prepared b.files target.output) target.output b b' call)
      (fun _ b' => r.Interrupted target b b') := by
  rw [makeTarget_eq]
  refine (ends_prepare_interrupted r catalog job classpath inputDigest force target b).bind
    fun found b₁ hb₁ => ?_
  obtain ⟨layers, hprepared⟩ := hb₁
  cases found with
  | none => exact ends_pure fun hcached => nomatch hcached
  | some request =>
      refine (ends_answer_prepared hprepared).mono (fun outcome b' hb' _ => ?_) fun _ _ h => h
      obtain ⟨call, htraced, hrequests⟩ := hb'
      exact ⟨call, htraced.calledOnce hrequests⟩

/-- The tree in which the tool is to write when an input is remapped to an output, and the path
    by which it does. There is none if the two are one place and the input is no file or cannot
    be moved aside. -/
def workplace? (t : FileTree) (input output : Path) : Option (FileTree × Path) :=
  if t.samePlace input output then
    if t.isFile input then
      (SourceRemapper.movedAside t input (devPath input r.settings.devSuffix)).toOption.map
        fun moved => (prepared moved input, input)
    else none
  else some (prepared t output, output)

theorem ends_remap (input output : Path) (direction : Direction) (classpath : List Path)
    (b : Bench Request) :
    Ends (r.remap catalog input output direction classpath) b
      (fun outcome b' => outcome.cached = false →
        ∃ place ∈ r.workplace? b.files input output, ∃ call, r.CalledOnce place.1 place.2 b b' call)
      (fun _ _ => True) := by
  rw [remap]
  refine ends_get_bind ?_
  rw [workplace?]
  by_cases hsame : b.files.samePlace input output = true
  · rw [if_pos hsame, if_pos hsame]
    refine (r.ends_remapInPlace catalog input direction classpath b).mono
      (fun outcome b' h _ => ?_) fun _ _ _ => trivial
    obtain ⟨hfile, m, hmoved, _, _, _, _, call, -, htraced, hrequests⟩ := h
    rw [if_pos hfile, hmoved]
    exact ⟨_, rfl, call, htraced.calledOnce hrequests⟩
  · rw [if_neg hsame, if_neg hsame]
    let job : Job :=
      { input
        source := direction.source
        targets := [{ label := direction.dest, output }]
        classpath }
    have htargets : job.targets = [⟨direction.dest, output⟩] := rfl
    refine ((ends_runJob_single r catalog htargets fun classpath' inputDigest =>
      ends_makeTarget_made r catalog job classpath' inputDigest false ⟨direction.dest, output⟩
        b).mono (fun _ _ h => h) fun _ _ _ => trivial).bind fun outcomes b' hb' => ?_
    obtain ⟨_, _, outcome, rfl, -, hmade⟩ := hb'
    exact ends_pure fun hcached => ⟨_, rfl, hmade hcached⟩

/-- The output of a run leads to what the tool writes, wherever it is to write. -/
def Delivers (t : FileTree) (input output : Path) : Prop :=
  ∀ place ∈ r.workplace? t input output, Reaches place.1 place.2 output

instance (t : FileTree) (input output : Path) : Decidable (r.Delivers t input output) :=
  inferInstanceAs (Decidable (∀ place ∈ r.workplace? t input output,
    Reaches place.1 place.2 output))

/-- In a plain tree every run delivers, unless the output stands for the input and is no file. -/
theorem delivers_of_plain {r : Remapper} (hvalid : r.settings.validate = .ok ()) {t : FileTree}
    (h : t.Plain) {input output : Path}
    (hfile : t.samePlace input output = true → t.isFile output = true) :
    r.Delivers t input output := by
  intro place hplace
  rw [workplace?] at hplace
  by_cases hsame : t.samePlace input output = true
  swap
  · rw [if_neg hsame] at hplace
    obtain rfl := Option.some.inj hplace
    exact reaches_of_plain (keeping_prepared h output).plain
      fun loc hloc => FileTree.resolve_target_of_place hloc
  rw [if_pos hsame] at hplace
  by_cases hinput : t.isFile input = true
  swap
  · rw [if_neg hinput] at hplace
    cases hplace
  rw [if_pos hinput] at hplace
  cases hmoved : SourceRemapper.movedAside t input (devPath input r.settings.devSuffix) with
  | error fault => rw [hmoved] at hplace; cases hplace
  | ok moved =>
  rw [hmoved] at hplace
  obtain rfl := Option.some.inj hplace
  -- the places of both paths are one, and both lead there while directories stay
  have hplaces : input.place = output.place := by
    rw [h.samePlace_eq hinput (hfile hsame)] at hsame
    exact eq_of_beq hsame
  obtain ⟨content, hstat⟩ := FileTree.stat_of_isFile hinput
  obtain ⟨content', hstat'⟩ := FileTree.stat_of_isFile (hfile hsame)
  have hname := FileTree.namesFile_of_stat hstat
  obtain ⟨kept, dropped, name, hcut⟩ := Path.exists_cut hname
    (FileTree.relative_of_resolve hname (h.stat_file hstat).1)
  have haside := aside_of_movedAside h hstat (beside_devPath hcut hvalid) hmoved
  have hkeeping := haside.keeping.trans (keeping_prepared haside.keeping.plain input)
  refine reaches_of_plain hkeeping.plain fun loc hloc => ?_
  rw [(hkeeping.plain.resolve_eq_ok hloc).1, hplaces]
  exact h.resolve_keeps hkeeping.plain hkeeping.dirs (h.stat_file hstat').1

/-- A tool that writes an archive without entries. -/
def archiver : Tool where
  name := "archiver"
  run request t :=
    match t.write request.output (.archive []) with
    | .ok t => (.ok (), t)
    | .error fault => (.error [fault.message], t)

theorem archiver_fulfils : archiver.Fulfils := by
  intro request t hok
  simp only [archiver] at hok ⊢
  cases hwrite : t.write request.output (.archive []) with
  | error fault => rw [hwrite] at hok; cases hok
  | ok t' => exact ⟨.archive [], hwrite⟩

/-- The run succeeds and takes nothing again, and its output is not what the tool wrote. -/
def MissesOutput (nodes : List (Location × Node)) (input output : Path) : Prop :=
  let run := (({ tool := archiver, settings := {} } : Remapper).remap twoLabels input output
    ⟨"a", "b"⟩ []).run.run (Bench.ofNodes nodes)
  run.1.map Outcome.cached = .ok false ∧ run.2.files.stat output ≠ .ok (.file (.archive []))

instance (nodes : List (Location × Node)) (input output : Path) :
    Decidable (MissesOutput nodes input output) :=
  inferInstanceAs (Decidable (_ ∧ _))

end Remapper

end Nomenclator.Remap
