import Nomenclator.Proofs.Remap.InPlace

/-! # Truthful sidecars — what a run in place does to the sidecars that are there

    A tree is truthful if every sidecar in it was written for what is beside it now.
    Which record was written for what is kept in a ledger.

    A run in place changes the archive, the dev path, and the two places at which the
    sidecar of the archive is written.  Only the sidecar of the archive changes with
    its archive; the others stay where they are.  So the tree is truthful afterwards
    if there is no record beside the dev path, the sidecar and its temporary file, and
    if neither the archive nor the dev path is a record beside a file (`Clear`).  Pairs
    of other places are followed through the run (`Clear.known`), and the new pair of
    the archive is what the call of the tool left (`Made`). -/

namespace Nomenclator.Remap

open Files Act

-- ── Places of sidecars ───────────────────────────────────────────────────────

namespace Sidecar

/-- Where the sidecar of the file at a location stands. -/
def beside (loc : Location) : Location :=
  loc.dropLast ++ [(loc.getLast?.getD (.ofText "")).append ".remap.json"]

theorem beside_concat (dir : Location) (name : Name) :
    beside (dir ++ [name]) = dir ++ [name.append ".remap.json"] := by
  rw [beside, List.dropLast_concat, List.getLast?_concat, Option.getD_some]

theorem beside_ofText (dir : Location) (text : String) :
    beside (dir ++ [.ofText text]) = dir ++ [.ofText (text ++ ".remap.json")] := by
  rw [beside_concat, Name.ofText_append]

theorem place_pathOf {output : Path} (h : output.NamesFile) :
    (pathOf output).place = beside output.place := by
  obtain ⟨dir, name, hplace, hsidecar, -⟩ := places h
  rw [hplace, hsidecar, beside_ofText]

/-- A sidecar stands beside one location only. -/
theorem eq_of_beside {loc other : Location} (hloc : loc ≠ []) (hother : other ≠ [])
    (h : beside loc = beside other) : loc = other := by
  obtain ⟨dir, name, rfl⟩ := List.eq_nil_or_concat loc |>.resolve_left hloc
  obtain ⟨dir', name', rfl⟩ := List.eq_nil_or_concat other |>.resolve_left hother
  rw [List.concat_eq_append, List.concat_eq_append, beside_concat, beside_concat] at h
  obtain ⟨hdir, hlast⟩ := List.append_inj' h rfl
  rw [hdir, Name.append_left_inj.1 (List.singleton_inj.1 hlast)]

theorem beside_ne (loc : Location) : beside loc ≠ loc := by
  obtain rfl | ⟨dir, name, rfl⟩ := List.eq_nil_or_concat loc
  · exact List.cons_ne_nil _ _
  · rw [List.concat_eq_append, beside_concat]
    intro heq
    exact name.append_ne_self (by decide) (List.singleton_inj.1 (List.append_cancel_left heq))

/-- A location whose name does not end like that of a sidecar is beside nothing. -/
theorem beside_ne_of_suffix {place : Location}
    (h : ¬ (Name.ofText ".remap.json").octets <:+ (place.getLast?.getD (.ofText "")).octets)
    (loc : Location) : beside loc ≠ place := by
  rintro rfl
  refine h ⟨(loc.getLast?.getD (.ofText "")).octets, ?_⟩
  rw [beside, List.getLast?_concat, Option.getD_some, Name.append]

theorem beside_ne_temporary {output : Path} (h : output.NamesFile) (loc : Location) :
    beside loc ≠ (temporaryPathOf output).place := by
  obtain ⟨dir, name, -, -, htemporary⟩ := places h
  rw [htemporary]
  refine beside_ne_of_suffix (fun hsuffix => ?_) loc
  rw [List.getLast?_concat, Option.getD_some, Name.ofText_append, Name.append] at hsuffix
  exact absurd (List.suffix_of_suffix_length_le hsuffix (List.suffix_append _ _) (by decide))
    (by decide)

end Sidecar

/-- The second location is in the directory of the first, with a longer name. -/
def Longer (short long : Location) : Prop :=
  ∃ dir name other, short = dir ++ [.ofText name] ∧ long = dir ++ [.ofText other]
    ∧ name.length < other.length

theorem Longer.beside_ne {short long : Location} (h : Longer short long) :
    Sidecar.beside long ≠ short := by
  obtain ⟨dir, name, other, rfl, rfl, hlonger⟩ := h
  rw [Sidecar.beside_ofText]
  intro heq
  have hname := congrArg String.length (Name.concat_ofText_inj heq).2
  rw [String.length_append] at hname
  omega

theorem longer_pathOf {output : Path} (h : output.NamesFile) :
    Longer output.place (Sidecar.pathOf output).place := by
  obtain ⟨dir, name, hplace, hsidecar, -⟩ := Sidecar.places h
  refine ⟨dir, name, _, hplace, hsidecar, ?_⟩
  rw [String.length_append]
  exact Nat.lt_add_of_pos_right (by decide)

theorem longer_temporaryPathOf {output : Path} (h : output.NamesFile) :
    Longer output.place (Sidecar.temporaryPathOf output).place := by
  obtain ⟨dir, name, hplace, -, htemporary⟩ := Sidecar.places h
  refine ⟨dir, name, _, hplace, htemporary, ?_⟩
  rw [String.length_append]
  exact Nat.lt_add_of_pos_right (by decide)

-- ── Truthful trees ───────────────────────────────────────────────────────────

/-- The content makes sense as a sidecar. -/
def Sidecar.Readable (record : Content) : Prop := (parse? record.bytes).isSome = true

instance (record : Content) : Decidable (Sidecar.Readable record) :=
  inferInstanceAs (Decidable (_ = _))

/-- At a location and at that of its sidecar there are these files, and the second makes sense
    as a sidecar. -/
structure Recorded (t : FileTree) (loc : Location) (content record : Content) : Prop where
  output : t.at? loc = some (.file content)
  sidecar : t.at? (Sidecar.beside loc) = some (.file record)
  readable : Sidecar.Readable record

/-- Every sidecar that can be read is one that was written for the file beside it, as the ledger
    has it. -/
def Truthful (ledger : Content → Content → Prop) (t : FileTree) : Prop :=
  ∀ loc content record, Recorded t loc content record → ledger content record

variable {ledger : Content → Content → Prop} {t u : FileTree}

theorem Truthful.mono {ledger' : Content → Content → Prop} (h : Truthful ledger t)
    (hmore : ∀ content record, ledger content record → ledger' content record) :
    Truthful ledger' t :=
  fun loc content record hrecorded => hmore _ _ (h loc content record hrecorded)

theorem Truthful.of_sheds (h : Truthful ledger t) (hsheds : FileTree.Sheds t u) :
    Truthful ledger u :=
  fun loc content record hrecorded => h loc content record
    ⟨hsheds _ _ hrecorded.output, hsheds _ _ hrecorded.sidecar, hrecorded.readable⟩

theorem Recorded.ne_nil {loc : Location} {content record : Content}
    (h : Recorded t loc content record) : loc ≠ [] :=
  FileTree.ne_nil_of_not_dir (t := t) (by rw [h.output]; exact fun hdir => nomatch hdir)

/-- The pairs of a tree in which the second makes sense as a sidecar of the first. -/
def recordedPairs (t : FileTree) : List (Content × Content) :=
  t.nodes.toList.filterMap fun e =>
    match e.2, t.at? (Sidecar.beside e.1) with
    | .file content, some (.file record) =>
      if Sidecar.Readable record then some (content, record) else none
    | _, _ => none

/-- A tree can be checked to be truthful node by node. -/
theorem truthful_of_nodes (h : ∀ pair ∈ recordedPairs t, ledger pair.1 pair.2) :
    Truthful ledger t := by
  intro loc content record hrecorded
  have houtput := hrecorded.output
  rw [FileTree.at?_of_ne_nil t hrecorded.ne_nil] at houtput
  refine h (content, record) (List.mem_filterMap.2
    ⟨(loc, .file content), SortedMap.get?_eq_some_iff.1 houtput, ?_⟩)
  dsimp only
  rw [hrecorded.sidecar]
  dsimp only
  rw [if_pos hrecorded.readable]

theorem Recorded.paired {p : Path} {content record : Content} (hname : p.NamesFile)
    (h : Recorded t p.place content record) : Paired t p content record :=
  ⟨h.output, by rw [Sidecar.place_pathOf hname]; exact h.sidecar⟩

-- ── What a run in place relies on ────────────────────────────────────────────

/-- The ways in which what a run in place changes could get in the way of other sidecars: there
    is a record beside the dev path, the sidecar of the archive, or its temporary file, or the
    archive or the dev path is a record beside another file. -/
inductive Conflict where
  | besideDev
  | besideSidecar
  | besideTemporary
  | ofArchive
  | ofDev
  deriving DecidableEq

def Conflict.all : List Conflict := [besideDev, besideSidecar, besideTemporary, ofArchive, ofDev]

theorem Conflict.mem_all (conflict : Conflict) : conflict ∈ all := by
  cases conflict <;> decide

/-- The tree has no such conflict.  A record beside the dev path may be there if it fits the
    archive, and the dev path may be beside a file if the archive makes no sense as a sidecar. -/
def Conflict.Absent (ledger : Content → Content → Prop) (t : FileTree) (archive dev : Path)
    (old : Content) : Conflict → Prop
  | besideDev => ∀ record, t.at? (Sidecar.beside dev.place) = some (.file record) →
      Sidecar.Readable record → ledger old record
  | besideSidecar => ∀ record,
      t.at? (Sidecar.beside (Sidecar.pathOf archive).place) = some (.file record) →
      ¬ Sidecar.Readable record
  | besideTemporary => ∀ record,
      t.at? (Sidecar.beside (Sidecar.temporaryPathOf archive).place) = some (.file record) →
      ¬ Sidecar.Readable record
  | ofArchive => ∀ loc content, t.at? loc = some (.file content) →
      Sidecar.beside loc ≠ archive.place
  | ofDev => Sidecar.Readable old → ∀ loc, Sidecar.beside loc = dev.place → loc = archive.place

/-- What a run in place changes does not get in the way of other sidecars. -/
def Clear (ledger : Content → Content → Prop) (t : FileTree) (archive dev : Path)
    (old : Content) : Prop :=
  ∀ conflict : Conflict, conflict.Absent ledger t archive dev old

theorem Aside.before {m : FileTree} {archive dev : Path} {old : Content}
    (h : Aside t m archive dev old) {loc : Location} {node : Node} (hloc : loc ≠ dev.place)
    (hat : m.at? loc = some node) : t.at? loc = some node := by
  rw [h.at?, if_neg hloc] at hat
  by_cases harchive : loc = archive.place
  · rw [if_pos harchive] at hat
    cases hat
  · rwa [if_neg harchive] at hat

/-- Before the job, the archive is away. -/
theorem Aside.unwound {m : FileTree} {archive dev : Path} {old : Content}
    (h : Aside t m archive dev old) (hbeside : Beside archive dev) : Unwound m m archive := by
  refine ⟨h.keeping.plain.keeping, fun content hfile => ?_, fun _ _ _ _ => rfl,
    fun _ _ hdir => hdir, fun _ hrecord => ⟨hrecord, rfl⟩⟩
  rw [h.at?, if_neg hbeside.place_ne, if_pos rfl] at hfile
  cases hfile

/-- Moving the archive back changes nothing, or moves the file that is at the dev path. -/
theorem Unwound.movedBack {m : FileTree} {archive dev : Path} {old : Content}
    (h : Unwound m u archive) (hname : archive.NamesFile) (hbeside : Beside archive dev)
    (haside : Aside t m archive dev old) :
    movedBack u archive dev = u ∨ ∃ moved, u.at? dev.place = some (.file moved)
      ∧ u.Keeping (Act.movedBack u archive dev)
      ∧ ∀ loc, (Act.movedBack u archive dev).at? loc = if loc = archive.place
        then some (.file moved) else if loc = dev.place then none else u.at? loc := by
  have hplain := h.keeping.plain
  have hne := hbeside.place_ne
  rw [Act.movedBack]
  cases hback : u.rename dev archive with
  | error fault => exact .inl rfl
  | ok v =>
      obtain ⟨name, hlast⟩ := hname
      obtain ⟨other, hother⟩ := hbeside.file
      have hsource := FileTree.endsInSlash_of_getLast? hother
      have hdest := FileTree.endsInSlash_of_getLast? hlast
      obtain ⟨src, dst, node, htests, -⟩ := FileTree.rename_inv hback
      obtain rfl := (hplain.entryAt_eq_ok htests.sourceAt).2 hsource
      have hthere := FileTree.lookUp_eq_ok htests.found
      cases node with
      | file moved =>
          exact .inr ⟨moved, hthere, hplain.rename hsource hdest hne.symm hthere hback⟩
      | link target => exact absurd hthere (hplain.noLink _ _)
      | dir =>
          have hdir := h.dirs _ hne.symm hthere
          rw [haside.at?, if_pos rfl] at hdir
          cases hdir

section Clear

variable {m : FileTree} {archive dev : Path} {old : Content} (hname : archive.NamesFile)
  (hbeside : Beside archive dev) (haside : Aside t m archive dev old)
  (hclear : Clear ledger t archive dev old)
include hname hbeside haside hclear

section Elsewhere

variable (helse : ∀ loc, loc ≠ archive.place → loc ≠ (Sidecar.pathOf archive).place →
  loc ≠ (Sidecar.temporaryPathOf archive).place → u.at? loc = m.at? loc)
include helse

/-- Where only the archive and its sidecar have changed, the archive is beside no file. -/
theorem Clear.beside_ne_archive {loc : Location} {content : Content}
    (hat : u.at? loc = some (.file content)) : Sidecar.beside loc ≠ archive.place := by
  by_cases harchive : loc = archive.place
  · rw [← harchive]
    exact Sidecar.beside_ne loc
  by_cases hsidecar : loc = (Sidecar.pathOf archive).place
  · rw [hsidecar]
    exact (longer_pathOf hname).beside_ne
  by_cases htemporary : loc = (Sidecar.temporaryPathOf archive).place
  · rw [htemporary]
    exact (longer_temporaryPathOf hname).beside_ne
  by_cases hdev : loc = dev.place
  · rw [hdev]
    exact Longer.beside_ne hbeside.names
  rw [helse loc harchive hsidecar htemporary] at hat
  exact hclear .ofArchive loc content (haside.before hdev hat)

variable (htruthful : Truthful ledger t)
include htruthful

/-- **Other sidecars are left truthful.** Where only the archive and its sidecar have changed
    since the archive was moved aside, the ledger has every record but that of the archive. -/
theorem Clear.known {loc : Location} {content record : Content}
    (h : Recorded u loc content record) (hloc : loc ≠ archive.place) : ledger content record := by
  have harchive := hclear.beside_ne_archive hname hbeside haside helse h.output
  have hsidecar : Sidecar.beside loc ≠ (Sidecar.pathOf archive).place := by
    rw [Sidecar.place_pathOf hname]
    obtain ⟨dir, name, hplace, -⟩ := Sidecar.places hname
    refine fun heq => hloc (Sidecar.eq_of_beside h.ne_nil ?_ heq)
    rw [hplace]
    exact List.append_ne_nil_of_right_ne_nil dir (List.cons_ne_nil _ [])
  have hmid : m.at? (Sidecar.beside loc) = some (.file record) := by
    rw [← helse _ harchive hsidecar (Sidecar.beside_ne_temporary hname loc)]
    exact h.sidecar
  have hdev : Sidecar.beside loc ≠ dev.place := by
    intro heq
    rw [haside.at?, if_pos heq] at hmid
    obtain rfl := Node.file.inj (Option.some.inj hmid)
    exact hloc (hclear .ofDev h.readable loc heq)
  have hrecord := haside.before hdev hmid
  have houtput : m.at? loc = some (.file content) := by
    rw [← helse loc hloc]
    · exact h.output
    · intro heq
      rw [heq] at hrecord
      exact hclear .besideSidecar record hrecord h.readable
    · intro heq
      rw [heq] at hrecord
      exact hclear .besideTemporary record hrecord h.readable
  by_cases hmoved : loc = dev.place
  · rw [haside.at?, if_pos hmoved] at houtput
    obtain rfl := Node.file.inj (Option.some.inj houtput)
    rw [hmoved] at hrecord
    exact hclear .besideDev record hrecord h.readable
  · exact htruthful loc content record ⟨haside.before hmoved houtput, hrecord, h.readable⟩

end Elsewhere

variable (htruthful : Truthful ledger t)
include htruthful

theorem Clear.unwound (hunwound : Unwound m u archive) : Truthful ledger u :=
  fun _ content _ h => hclear.known hname hbeside haside hunwound.elsewhere htruthful h
    fun heq => hunwound.noFile content (heq ▸ h.output)

/-- A tree that was truthful is truthful when the archive has been moved back. -/
theorem Clear.movedBack (hat : t.at? archive.place = some (.file old))
    (hunwound : Unwound m u archive) : Truthful ledger (movedBack u archive dev) := by
  have hne := hbeside.place_ne
  obtain hsame | ⟨moved, hmoved, -, hback⟩ := hunwound.movedBack hname hbeside haside
  · rw [hsame]
    exact hclear.unwound hname hbeside haside htruthful hunwound
  have hbefore : ∀ {loc node}, loc ≠ archive.place →
      (Act.movedBack u archive dev).at? loc = some node →
      loc ≠ dev.place ∧ u.at? loc = some node := by
    intro loc node hloc hnode
    rw [hback, if_neg hloc] at hnode
    by_cases hdev : loc = dev.place
    · rw [if_pos hdev] at hnode
      cases hnode
    · rw [if_neg hdev] at hnode
      exact ⟨hdev, hnode⟩
  intro loc content record h
  by_cases hloc : loc = archive.place
  · -- a sidecar that is still beside the archive was there before, and so was the archive
    have houtput := h.output
    have hsidecar := h.sidecar
    rw [hloc, ← Sidecar.place_pathOf hname] at hsidecar
    rw [hback, if_pos hloc] at houtput
    obtain ⟨hdev, hthere⟩ := hbefore (fun heq => (OffSidecar.self hname).sidecar heq.symm) hsidecar
    obtain ⟨hmid, htemporary⟩ := hunwound.beside record hthere
    have hold : u.at? dev.place = some (.file old) := by
      have hat : u.at? dev.place = m.at? dev.place := by
        by_cases heq : dev.place = (Sidecar.temporaryPathOf archive).place
        · rw [heq, htemporary]
        · exact hunwound.elsewhere _ hne.symm (Ne.symm hdev) heq
      rw [hat, haside.at?, if_pos rfl]
    obtain rfl : old = content :=
      Node.file.inj (Option.some.inj (hold.symm.trans (hmoved.trans houtput)))
    refine htruthful archive.place old record ⟨hat, ?_, h.readable⟩
    rw [← Sidecar.place_pathOf hname]
    exact haside.before hdev hmid
  · obtain ⟨-, houtput⟩ := hbefore hloc h.output
    have harchive := hclear.beside_ne_archive hname hbeside haside hunwound.elsewhere houtput
    exact hclear.known hname hbeside haside hunwound.elsewhere htruthful
      ⟨houtput, (hbefore harchive h.sidecar).2, h.readable⟩ hloc

end Clear

-- ── The run ──────────────────────────────────────────────────────────────────

/-- The content is what a call of the tool has left in this run at the archive, and the record
    is the sidecar that was written for it. -/
def Remapper.Made (r : Remapper) (archive dev : Path) (b b' : Bench Request)
    (content record : Content) : Prop :=
  ∃ old call, b.files.stat archive = .ok (.file old)
    ∧ b'.requests = b.requests ++ [call.request]
    ∧ Built r dev (Digest.fingerprint old.bytes) archive content record call

/-- An output that a later run takes again in this tree is one that the ledger has with its
    sidecar, or was made by the same run. -/
def Backed (ledger : Content → Content → Prop) (t : FileTree) : Prop :=
  ∀ (r : Remapper) (catalog : Naming.Catalog) (job : Job) (c c' : Bench Request)
    (before : List Outcome) (outcome : Outcome) (later : List Outcome),
    c.files = t → c.cache.Faithful → r.tool.WritesOnlyOutput →
    (∀ target ∈ job.targets, ∀ other ∈ job.targets, OffSidecar target.output other.output) →
    (r.run catalog job).run.run c = (.ok (before ++ outcome :: later), c') →
    outcome.cached = true →
    (∀ o ∈ later, o.cached = false → o.output.place ≠ outcome.output.place) →
    ∃ content record, c'.files.stat outcome.output = .ok (.file content)
      ∧ (ledger content record ∨ ∃ bytes, ∃ call ∈ r.calls catalog (job.upTo before.length) c,
        Built r job.input (Digest.fingerprint bytes) outcome.output content record call)

theorem Truthful.backed (h : Truthful ledger t) (hplain : t.Plain) : Backed ledger t := by
  rintro r catalog job c c' before outcome later rfl hfaithful htool hoff hrun hcached hlater
  obtain ⟨b₁, bytes, content, record, s, ⟨target, htarget, houtput⟩, hbefore, hbytes, hname,
      hpaired, -, hparse, -, -, -, -, hstat⟩ :=
    Remapper.run_reuse htool hoff hplain hfaithful hrun hcached hlater
  have hwatchable : Remapper.Watchable outcome.output (job.upTo before.length).targets := by
    refine ⟨hname, fun other hother => ?_⟩
    have hmem := List.mem_of_mem_take hother
    rw [← houtput]
    exact ⟨hoff target htarget other hmem, hoff other hmem target htarget⟩
  obtain ⟨-, -, hpairs⟩ := Remapper.run_paired catalog htool hplain hfaithful hbefore
  refine ⟨content, record, hstat, ?_⟩
  rcases hpairs outcome.output hwatchable content record hpaired with
    ⟨hstart, -⟩ | ⟨bytes', -, call, hcall, hbuilt⟩
  · have hreadable : Sidecar.Readable record := by rw [Sidecar.Readable, hparse]; rfl
    have hsidecar := hstart.sidecar
    rw [Sidecar.place_pathOf hname] at hsidecar
    exact .inl (h _ _ _ ⟨hstart.output, hsidecar, hreadable⟩)
  · exact .inr ⟨bytes', call, hcall, hbuilt⟩

namespace Remapper

section Archive

variable {r : Remapper} (htool : r.tool.WritesOnlyOutput) {archive dev : Path}
  {direction : Direction} {b b' : Bench Request} (hplain : b.files.Plain) {old : Content}
  (hstat : b.files.stat archive = .ok (.file old)) (hbeside : Beside archive dev)
include htool hplain hstat hbeside

/-- A run in place that fails has at most removed what was at the dev path, or has unwound the
    job and moved the archive back. -/
theorem Failed.unwound (h : r.Failed archive dev direction b b') :
    b'.files = b.files ∨ b.files.removeFile dev = .ok b'.files
      ∨ ∃ m u, Aside b.files m archive dev old ∧ Unwound m u archive
        ∧ b'.files = movedBack u archive dev := by
  obtain ⟨hleads, -⟩ := hplain.stat_file hstat
  have hname := FileTree.namesFile_of_stat hstat
  rcases h with hsame | ⟨-, hremoved | ⟨m, hmoved, u, hu, hfiles⟩⟩
  · exact .inl hsame
  · exact .inr (.inl hremoved)
  · have haside := aside_of_movedAside hplain hstat hbeside hmoved
    refine .inr (.inr ⟨m.files, u, haside, ?_, hfiles⟩)
    rcases hu with rfl | ⟨c, hinterrupted, rfl⟩
    · exact haside.unwound hbeside
    · have hleads' := hplain.resolve_keeps haside.keeping.plain haside.keeping.dirs hleads
      exact (Interrupted.midway htool ⟨direction.dest, archive⟩ haside.keeping.plain hname hleads'
        hinterrupted).unwound haside.keeping.plain hname hleads'

theorem Completed.plain {outcome : Outcome} (h : r.Completed archive dev direction b outcome b') :
    b'.files.Plain := by
  obtain ⟨-, m, hmoved, classpath, classpath', bytes, layers, call, -, htraced, -⟩ := h
  have haside := aside_of_movedAside hplain hstat hbeside hmoved
  exact (Traced.keeping htool haside.keeping.plain htraced).plain

variable (hclear : Clear ledger b.files archive dev old) (htruthful : Truthful ledger b.files)
include hclear htruthful

theorem Failed.truthful (h : r.Failed archive dev direction b b') :
    b'.files.Plain ∧ Truthful ledger b'.files := by
  have hname := FileTree.namesFile_of_stat hstat
  rcases Failed.unwound htool hplain hstat hbeside h with
    hsame | hremoved | ⟨m, u, haside, hunwound, hfiles⟩
  · rw [hsame]
    exact ⟨hplain, htruthful⟩
  · exact ⟨(hplain.removeFile hremoved).1.plain,
      htruthful.of_sheds (FileTree.sheds_removeFile hremoved)⟩
  · rw [hfiles]
    refine ⟨?_, hclear.movedBack hname hbeside haside htruthful (hplain.stat_file hstat).2 hunwound⟩
    obtain hsame | ⟨-, -, hkeeping, -⟩ := hunwound.movedBack hname hbeside haside
    · rw [hsame]
      exact hunwound.keeping.plain
    · exact hkeeping.plain

theorem Completed.truthful {outcome : Outcome}
    (h : r.Completed archive dev direction b outcome b') :
    Truthful (fun content record => ledger content record
      ∨ r.Made archive dev b b' content record) b'.files := by
  obtain ⟨-, m, hmoved, classpath, classpath', bytes, layers, call, hbytes, htraced, hrequests⟩ := h
  have haside := aside_of_movedAside hplain hstat hbeside hmoved
  have hname := FileTree.namesFile_of_stat hstat
  have hmid := Traced.midway htool ⟨direction.dest, archive⟩ haside.keeping.plain hname
    (hplain.resolve_keeps haside.keeping.plain haside.keeping.dirs (hplain.stat_file hstat).1)
    htraced
  have hoff := OffSidecar.self hname
  intro loc content record hrecorded
  by_cases hloc : loc = archive.place
  · rw [hloc] at hrecorded
    rcases Traced.paired htool haside.keeping.plain hoff hname hoff htraced
      (hrecorded.paired hname) with hbefore | ⟨_, hcall, hbuilt, -⟩
    · have houtput := hbefore.output
      rw [haside.at?, if_neg hbeside.place_ne, if_pos rfl] at houtput
      cases houtput
    · obtain rfl := Option.some.inj hcall
      obtain ⟨source, hsource, rfl⟩ := FileTree.readBytes_eq_ok hbytes
      have hat := (haside.keeping.plain.stat_file hsource).2
      rw [haside.at?, if_pos rfl] at hat
      obtain rfl := Node.file.inj (Option.some.inj hat)
      exact .inr ⟨_, call, hstat, hrequests, hbuilt⟩
  · exact .inl (hclear.known hname hbeside haside hmid.elsewhere htruthful hrecorded hloc)

end Archive

/-- **The dev path is taken again with the archive in it.** What was current at the dev path is
    taken for current after a run in place that succeeds, although its content was replaced:
    its sidecar stays beside it. -/
theorem Completed.reusable_dev {r : Remapper} (htool : r.tool.WritesFile) {archive dev : Path}
    {direction : Direction} {b b' : Bench Request} (hplain : b.files.Plain) {old : Content}
    (hstat : b.files.stat archive = .ok (.file old)) (hbeside : Beside archive dev)
    (hoff : OffSidecar dev archive) {outcome : Outcome}
    (h : r.Completed archive dev direction b outcome b') {expected : Sidecar}
    (hreusable : Reusable b.files dev expected) : Reusable b'.files dev expected := by
  have hdev := (Completed.finished htool hplain hstat hbeside hoff h).2.1
  refine hreusable.kept (fun _ => by rw [FileTree.isFile, hdev]) fun record hrecord => ?_
  obtain ⟨-, m, hmoved, classpath, classpath', bytes, layers, call, -, htraced, -⟩ := h
  have haside := aside_of_movedAside hplain hstat hbeside hmoved
  have hname := FileTree.namesFile_of_stat hstat
  have hmid := Traced.midway htool.writesOnlyOutput ⟨direction.dest, archive⟩ haside.keeping.plain
    hname (hplain.resolve_keeps haside.keeping.plain haside.keeping.dirs (hplain.stat_file hstat).1)
    htraced
  have hkeeping := haside.keeping.trans hmid.keeping
  obtain ⟨hleads, hat⟩ := hplain.stat_file hrecord
  refine FileTree.stat_of_resolve
    (hplain.resolve_keeps hkeeping.plain hkeeping.dirs hleads) (Eq.trans ?_ hat)
  have hself : (Sidecar.pathOf dev).place ≠ dev.place := (OffSidecar.self hbeside.file).sidecar.symm
  have harchive : (Sidecar.pathOf dev).place ≠ archive.place := by
    rw [Sidecar.place_pathOf hbeside.file]
    exact Longer.beside_ne hbeside.names
  rw [hmid.elsewhere _ harchive (fun heq => hbeside.place_ne
    (Sidecar.place_eq_of_pathOf hbeside.file hname heq).symm)
    (Sidecar.place_temporary_ne hname hbeside.file).symm, haside.at?, if_neg hself, if_neg harchive]

end Remapper

-- ── Runs that leave sidecars behind ──────────────────────────────────────────

/-- A sidecar that some other tool has written. -/
def otherRecord : Content := .raw (Text.encodeUtf8 "[\"other\",\"\",[],[]]".toList)

theorem Remapper.Made.record_ne {r : Remapper} {archive dev : Path} {b b' : Bench Request}
    {content record : Content} (h : r.Made archive dev b b' content record)
    (hname : r.tool.name ≠ "other") : record ≠ otherRecord := by
  rintro rfl
  obtain ⟨old, call, -, -, hbuilt⟩ := h
  obtain ⟨time, hrecord⟩ := hbuilt.recorded
  have hother : Sidecar.parse? otherRecord.bytes = some ⟨"other", "", [], [], 0⟩ := by
    decide +kernel
  rw [hrecord] at hother
  have hsame := Option.some.inj ((Sidecar.parse?_render _).symm.trans hother)
  exact hname (congrArg Sidecar.tool hsame)

/-- A run in place, from `a` to `b`. -/
structure Trial where
  tool : Tool
  archive : String
  nodes : List (Location × Node)
  suffix : String := "-dev"

namespace Trial

variable (trial : Trial)

def remapper : Remapper := { tool := trial.tool, settings := { devSuffix := trial.suffix } }

def dev : Path := devPath ⟨trial.archive⟩ trial.suffix

def start : Bench Request := .ofNodes trial.nodes

def run : Except Error Outcome × Bench Request :=
  (trial.remapper.remapInPlace twoLabels ⟨trial.archive⟩ ⟨"a", "b"⟩ []).run.run trial.start

/-- The trial shows that the absence of other conflicts is not enough: it starts in a plain tree
    in which no sidecar can be read beside a file, and the run leaves one that was written for
    something else. -/
structure Loses (conflict : Conflict) : Prop where
  tool : trial.remapper.tool.WritesOnlyOutput
  valid : trial.remapper.settings.validate = .ok ()
  plain : trial.start.files.Plain
  truthful : Truthful (fun _ _ => False) trial.start.files
  others : ∃ old, trial.start.files.stat ⟨trial.archive⟩ = .ok (.file old)
    ∧ ∀ other, other ≠ conflict →
      other.Absent (fun _ _ => False) trial.start.files ⟨trial.archive⟩ trial.dev old
  lost : ¬ Truthful (fun content record => False ∨ trial.run.1.isOk = true
    ∧ trial.remapper.Made ⟨trial.archive⟩ trial.dev trial.start trial.run.2 content record)
    trial.run.2.files

/-- Does the last name end like that of a sidecar? -/
def endsLikeSidecar (loc : Location) : Bool :=
  (Name.ofText ".remap.json").octets.isSuffixOf (loc.getLast?.getD (.ofText "")).octets

/-- A check for the absence of a conflict. -/
def check (old : Content) : Conflict → Bool
  | .besideDev => (trial.start.files.at? (Sidecar.beside trial.dev.place)).isNone
  | .besideSidecar =>
    (trial.start.files.at? (Sidecar.beside (Sidecar.pathOf ⟨trial.archive⟩).place)).isNone
  | .besideTemporary =>
    (trial.start.files.at? (Sidecar.beside (Sidecar.temporaryPathOf ⟨trial.archive⟩).place)).isNone
  | .ofArchive => !endsLikeSidecar (Files.Path.mk trial.archive).place
  | .ofDev => !decide (Sidecar.Readable old) || !endsLikeSidecar trial.dev.place

variable {trial}

theorem absent_of_check {ledger : Content → Content → Prop} {old : Content} {conflict : Conflict}
    (h : trial.check old conflict = true) :
    conflict.Absent ledger trial.start.files ⟨trial.archive⟩ trial.dev old := by
  have hnone : ∀ {loc record}, (trial.start.files.at? loc).isNone = true →
      trial.start.files.at? loc ≠ some (.file record) := by
    intro loc record hnone hat
    rw [hat] at hnone
    cases hnone
  have hsuffix : ∀ {place : Location}, (!endsLikeSidecar place) = true →
      ¬ (Name.ofText ".remap.json").octets <:+ (place.getLast?.getD (.ofText "")).octets := by
    intro place hplace hsuffix
    rw [endsLikeSidecar, List.isSuffixOf_iff_suffix.2 hsuffix] at hplace
    cases hplace
  cases conflict with
  | besideDev =>
      rw [check] at h
      exact fun record hat => absurd hat (hnone h)
  | besideSidecar =>
      rw [check] at h
      exact fun record hat => absurd hat (hnone h)
  | besideTemporary =>
      rw [check] at h
      exact fun record hat => absurd hat (hnone h)
  | ofArchive =>
      rw [check] at h
      exact fun loc _ _ => Sidecar.beside_ne_of_suffix (hsuffix h) loc
  | ofDev =>
      rw [check] at h
      intro hreadable loc heq
      rw [decide_eq_true hreadable, Bool.not_true, Bool.false_or] at h
      exact absurd heq (Sidecar.beside_ne_of_suffix (hsuffix h) loc)

/-- What is to be checked of a trial before the run. -/
def Starts (trial : Trial) (old : Content) (conflict : Conflict) : Prop :=
  trial.tool.name ≠ "other" ∧ trial.remapper.settings.validate = .ok ()
    ∧ (∀ e ∈ trial.start.files.nodes.toList,
      e.2.isLink = false ∧ trial.start.files.at? e.1.dropLast = some .dir)
    ∧ recordedPairs trial.start.files = []
    ∧ trial.start.files.stat ⟨trial.archive⟩ = .ok (.file old)
    ∧ ∀ other ∈ Conflict.all, other = conflict ∨ trial.check old other = true

/-- After the run, the sidecar of some other tool is beside a file. -/
def leaves (trial : Trial) (loc : Location) : Bool :=
  match trial.run.2.files.at? loc with
  | some (.file _) => trial.run.2.files.at? (Sidecar.beside loc) = some (.file otherRecord)
  | _ => false

instance (trial : Trial) (old : Content) (conflict : Conflict) :
    Decidable (trial.Starts old conflict) :=
  inferInstanceAs (Decidable (_ ∧ _))

theorem loses_of_leaves (htool : trial.tool.WritesOnlyOutput) (old : Content) {conflict : Conflict}
    (loc : Location) (hstarts : trial.Starts old conflict) (hleaves : trial.leaves loc = true) :
    trial.Loses conflict := by
  obtain ⟨hname, hvalid, hnodes, hpairs, hstat, hchecks⟩ := hstarts
  refine ⟨htool, hvalid, FileTree.plain_of_nodes hnodes, truthful_of_nodes ?_,
    ⟨old, hstat, fun other hne => ?_⟩, fun htruthful => ?_⟩
  · rw [hpairs]
    exact fun _ hpair => nomatch hpair
  · exact absent_of_check ((hchecks other other.mem_all).resolve_left hne)
  · rw [leaves] at hleaves
    split at hleaves
    · next content houtput =>
        obtain hknown | ⟨-, hmade⟩ := htruthful loc content otherRecord
          ⟨houtput, of_decide_eq_true hleaves, by decide +kernel⟩
        · exact hknown
        · exact hmade.record_ne hname rfl
    · cases hleaves

end Trial

/-- A tool that writes a sidecar of another tool to its output. -/
def Tool.copying : Tool where
  name := "copier"
  run request t :=
    match t.write request.output otherRecord with
    | .ok t => (.ok (), t)
    | .error fault => (.error [fault.message], t)

theorem Tool.copying_writesFile : copying.WritesFile :=
  writesFile_of_run (fun _ => otherRecord) fun _ _ => rfl

/-- A tree with an input and an archive. -/
def inputAndArchive : FileTree :=
  { nodes := .ofList [(["in"], .file (.raw [1])), (["mod.jar"], .file (.raw [2]))] }

theorem inputAndArchive_plain : inputAndArchive.Plain :=
  FileTree.plain_of_nodes (by decide +kernel)

/-- What a run from the input to the dev path of the archive leaves. -/
def withEarlierOutput : Bench Request :=
  { files := ((World.ofFiles inputAndArchive).step
      (.job (.toOutputs .labelling ["mod-dev.jar"]))).files }

theorem withEarlierOutput_files : withEarlierOutput.files
    = ((World.ofFiles inputAndArchive).step
      (.job (.toOutputs .labelling ["mod-dev.jar"]))).files := by
  rw [withEarlierOutput]

/-- The run that remaps the archive in place then. -/
def archiveInPlace : Except Error Outcome × Bench Request :=
  (({ tool := .labelling, settings := {} } : Remapper).remapInPlace twoLabels ⟨"mod.jar"⟩
    ⟨"a", "b"⟩ []).run.run withEarlierOutput

theorem archiveInPlace_checks : archiveInPlace.1.isOk = true
    ∧ archiveInPlace.2.files.readBytes ⟨"in"⟩ = .ok [1]
    ∧ archiveInPlace.2.files.samePlace ⟨"in"⟩ ⟨"mod-dev.jar"⟩ = false := by
  decide +kernel

/-- **An archive that is taken for an output.** Where the dev path was an output before, its
    sidecar stays there with the archive that is moved there, and the next run for this output
    takes the archive again. -/
theorem archiveInPlace_is_reused :
    (World.ofFiles inputAndArchive).Makes .labelling "mod-dev.jar"
      ∧ ∃ outcome b', archiveInPlace = (.ok outcome, b')
        ∧ b'.files.stat ⟨"mod-dev.jar"⟩ = .ok (.file (.raw [2]))
        ∧ (World.ofFiles b'.files).Reuses .labelling "mod-dev.jar" := by
  have hmakes : (World.ofFiles inputAndArchive).Makes .labelling "mod-dev.jar" := by
    decide +kernel
  have hsound := World.sound_ofFiles inputAndArchive_plain
  have hplain := (hsound.toOutputs Tool.labelling_writesOnlyOutput ["mod-dev.jar"]).plain
  have hreusable := World.reusable_after hsound Tool.labelling_writesOnlyOutput
    ⟨"b", ⟨"mod-dev.jar"⟩⟩ rfl hmakes.2.1 hmakes.1
  rw [← withEarlierOutput_files] at hplain hreusable
  have hstat : withEarlierOutput.files.stat ⟨"mod.jar"⟩ = .ok (.file (.raw [2])) := by
    decide +kernel
  have hvalid : ({} : Settings).validate = .ok () := by decide +kernel
  obtain ⟨hok, hinput, hother⟩ := archiveInPlace_checks
  rcases hrun : archiveInPlace with ⟨result, b'⟩
  rw [hrun] at hok hinput hother
  cases result with
  | error e => cases hok
  | ok outcome =>
      have hcompleted := (Remapper.ends_remapInPlace { tool := .labelling, settings := {} }
        twoLabels ⟨"mod.jar"⟩ ⟨"a", "b"⟩ [] withEarlierOutput).of_run_ok hrun
      have hname := FileTree.namesFile_of_stat hstat
      obtain ⟨kept, dropped, name, hcut⟩ := Path.exists_cut hname
        (FileTree.relative_of_resolve hname (hplain.stat_file hstat).1)
      have hbeside := beside_devPath hcut hvalid
      have hdev : devPath ⟨"mod.jar"⟩ "-dev" = ⟨"mod-dev.jar"⟩ := by decide +kernel
      rw [show ({} : Settings).devSuffix = "-dev" from rfl, hdev] at hcompleted hbeside
      have hoff : OffSidecar ⟨"mod-dev.jar"⟩ ⟨"mod.jar"⟩ :=
        ⟨by decide +kernel, by decide +kernel⟩
      have hfinished := hcompleted.finished Tool.labelling_writesFile hplain hstat hbeside hoff
      have hplain' := hcompleted.plain Tool.labelling_writesOnlyOutput hplain hstat hbeside
      exact ⟨hmakes, outcome, b', rfl, hfinished.2.1, World.reuses_of_reusable
        (World.sound_ofFiles hplain') hinput hother
        (hcompleted.reusable_dev Tool.labelling_writesFile hplain hstat hbeside hoff hreusable)⟩

/-- An archive and another file with sidecars. -/
def recordedArchive : Trial :=
  { tool := .labelling
    archive := "mod.jar"
    nodes := [(["lib.jar"], .file (.raw [2])), (["lib.jar.remap.json"], .file otherRecord),
      (["mod.jar"], .file (.raw [2])), (["mod.jar.remap.json"], .file otherRecord),
      (["mod-dev.jar"], .file (.raw [3]))] }

end Nomenclator.Remap
