import Nomenclator.Proofs.Archive.Builder
import Nomenclator.Proofs.Files.Descent
import Nomenclator.Proofs.Remap.SourceKept

/-! # The files of a source run — read, sorted out, answered and put in order

    Between the input and the output a run handles lists of files by their paths:

    * **Reading** — `filesOf?`; from a directory each file with its path as it is shown,
      which is that of no other file if its names are texts (`nodup_carried`); no
      directory is read from an archive (`file_of_filesOf?`);
    * **Sorting out** — the units with their texts, and the rest (`sortOut_of_texts`);
    * **Answers** — they can be used exactly when they have the paths of the units, each
      of which is that of one unit, and then the last text for a path counts
      (`matchAnswers_spec`);
    * **Order** — what is written is `Expected`, by increasing paths
      (`mem_merged_iff`, `increasing_merged`). -/

namespace Nomenclator

namespace Archive

open Files (ArchiveEntry)

-- ── Names of members ─────────────────────────────────────────────────────────

/-- A record comes with a new name, or in the place of one with its name. -/
theorem nodup_addRecord {records : List Record} (h : (records.map Record.name).Nodup)
    (record : Record) : ((addRecord records record).map Record.name).Nodup := by
  rw [addRecord]
  by_cases hthere : records.any (fun r => r.name == record.name) = true
  · rw [if_pos hthere]
    have hsame : (records.map fun r => if r.name == record.name then record else r).map Record.name
        = records.map Record.name := by
      rw [List.map_map]
      refine List.map_congr_left fun r _ => ?_
      by_cases heq : (r.name == record.name) = true
      · rw [Function.comp, if_pos heq, eq_of_beq heq]
      · rw [Function.comp, if_neg heq]
    rw [hsame]
    exact h
  · rw [if_neg hthere, List.map_append, List.nodup_append]
    refine ⟨h, List.nodup_singleton _, fun name hname other hother heq => hthere ?_⟩
    obtain ⟨r, hr, rfl⟩ := List.mem_map.1 hname
    rw [List.map_singleton, List.mem_singleton] at hother
    exact List.any_eq_true.2 ⟨r, hr, beq_iff_eq.2 (heq.trans hother)⟩

/-- No two members of an archive have one name. -/
theorem nodup_members? {bytes : Bytes} {members : List Member} (h : members? bytes = some members) :
    (members.map Member.name).Nodup := by
  obtain ⟨records, hrecords, rfl⟩ := Option.map_eq_some_iff.1 h
  obtain ⟨place, -, hplace⟩ := List.exists_of_findSome?_eq_some hrecords
  rw [List.map_map]
  obtain ⟨ending, -, hplace⟩ := Option.bind_eq_some_iff.1 hplace
  obtain ⟨all, -, hplace⟩ := Option.bind_eq_some_iff.1 hplace
  obtain rfl := Option.some.inj hplace
  exact List.foldlRecOn (motive := fun records => (records.map Record.name).Nodup) all addRecord
    (show (([] : List Record).map Record.name).Nodup from List.nodup_nil)
    fun records h record _ => nodup_addRecord h record

/-- Files are selected from the members, and no directories. -/
theorem select_eq_ok {wanted : String → Bool} {members : List Member}
    {files : List (String × Bytes)} (h : select wanted members = .ok files) :
    (files.map Prod.fst).Sublist (members.map Member.name)
      ∧ ∀ file ∈ files, isDirName file.1 = false := by
  induction members generalizing files with
  | nil =>
      cases h
      exact ⟨List.Sublist.slnil, fun _ hfile => nomatch hfile⟩
  | cons m later ih =>
      have hrest : (if isDirName m.name || !wanted m.name then select wanted later
          else if sizeLimit ≤ m.size then .error .oversized
          else do
            let data ← m.data
            let files ← select wanted later
            return (m.name, data) :: files) = .ok files := by
        rw [select] at h
        split at h
        · cases h
        · exact h
      by_cases hskip : (isDirName m.name || !wanted m.name) = true
      · rw [if_pos hskip] at hrest
        obtain ⟨hnames, hfiles⟩ := ih hrest
        exact ⟨hnames.cons _, hfiles⟩
      rw [if_neg hskip] at hrest
      by_cases hsize : sizeLimit ≤ m.size
      · rw [if_pos hsize] at hrest
        cases hrest
      rw [if_neg hsize] at hrest
      obtain ⟨data, -, hrest⟩ := Outcome.bind_eq_ok.1 hrest
      obtain ⟨files', hfiles', hrest⟩ := Outcome.bind_eq_ok.1 hrest
      obtain rfl := Except.ok.inj hrest
      obtain ⟨hnames, hfiles⟩ := ih hfiles'
      rw [Bool.or_eq_true, not_or] at hskip
      exact ⟨hnames.cons_cons _, List.forall_mem_cons.2 ⟨Bool.eq_false_iff.2 hskip.1, hfiles⟩⟩

end Archive

namespace Remap.SourceRemapper

open Files

-- ── Reading ──────────────────────────────────────────────────────────────────

/-- The files of an input, with their paths inside it as they are shown, as a run reads them. -/
def filesOf? (t : FileTree) (input : Path) : Option (List (String × Content)) :=
  if t.isDir input then
    (t.filesBelow input).toOption.map fun files =>
      files.map fun (loc, content) => (Location.lossy loc, content)
  else do
    let content ← (t.readContent input).toOption
    let members ← content.members?
    let files ← (Archive.select (fun _ => true) members).toOption
    return files.map fun (name, data) => (name, .raw data)

/-- A run reads these files, and changes nothing by it. -/
theorem run_readFiles {b : Bench SourceRequest} {input : Path} {files : List (String × Content)}
    (h : filesOf? b.files input = some files) :
    (if b.files.isDir input then readDirectory input else readArchive input).run.run b
      = (.ok files, b) := by
  rw [filesOf?] at h
  by_cases hdir : b.files.isDir input = true
  · rw [if_pos hdir] at h ⊢
    obtain ⟨found, hfound, rfl⟩ := Option.map_eq_some_iff.1 h
    rw [readDirectory]
    rw [Act.run_get_bind, Outcome.toOption_eq_some.1 hfound]
    rfl
  · rw [if_neg hdir] at h ⊢
    obtain ⟨content, hcontent, h⟩ := Option.bind_eq_some_iff.1 h
    obtain ⟨members, hmembers, h⟩ := Option.bind_eq_some_iff.1 h
    obtain ⟨found, hfound, h⟩ := Option.bind_eq_some_iff.1 h
    obtain rfl := Option.some.inj h
    rw [readArchive]
    rw [Act.run_get_bind, Outcome.toOption_eq_some.1 hcontent]
    dsimp only
    rw [hmembers]
    dsimp only
    rw [Outcome.toOption_eq_some.1 hfound]
    rfl

/-- What every file system keeps to, and every archive that was put together entry by entry:
    the names in a directory are names, and no archive has two entries with one name. Octets
    can hold such an archive; of two records with one name the later is read. -/
structure Orderly (t : FileTree) : Prop where
  names : ∀ loc, t.at? loc ≠ none → ∀ name ∈ loc, name.IsEntry
  archives : ∀ loc entries, t.at? loc = some (.file (.archive entries)) →
    (entries.map ArchiveEntry.name).Nodup

/-- Is the node no archive with two entries of one name? -/
def hasNamesOnce : Node → Bool
  | .file (.archive entries) => decide (entries.map ArchiveEntry.name).Nodup
  | _ => true

theorem mem_nodes_of_at? {t : FileTree} {loc : Location} {node : Node}
    (hat : t.at? loc = some node) : loc = [] ∨ (loc, node) ∈ t.nodes.toList := by
  by_cases hnil : loc = []
  · exact .inl hnil
  · rw [FileTree.at?_of_ne_nil t hnil] at hat
    exact .inr (SortedMap.get?_eq_some_iff.1 hat)

/-- A tree can be checked to be orderly node by node. -/
theorem orderly_of_nodes {t : FileTree} (h : ∀ e ∈ t.nodes.toList,
    (∀ name ∈ e.1, name.IsEntry) ∧ hasNamesOnce e.2 = true) : Orderly t := by
  refine ⟨fun loc hat => ?_, fun loc entries hat => ?_⟩
  · obtain ⟨node, hat⟩ := Option.ne_none_iff_exists'.1 hat
    rcases mem_nodes_of_at? hat with rfl | hmem
    · exact fun name hname => nomatch hname
    · exact (h _ hmem).1
  · rcases mem_nodes_of_at? hat with rfl | hmem
    · cases hat
    · exact of_decide_eq_true (h _ hmem).2

/-- A file with this path is a unit, or it is passed on. -/
def carriesOver (r : SourceRemapper) (path : String) : Bool :=
  isUnit path || r.settings.passResources

/-- What a run carries over from a directory has names that are texts, on the whole way to it. -/
def Spelled (r : SourceRemapper) (t : FileTree) (input : Path) : Prop :=
  ∀ rel content, t.isDir input = true → t.at? (input.place ++ rel) = some (.file content) →
    r.carriesOver (Location.lossy rel) = true → ∀ name ∈ rel, name.IsText

theorem spelled_of_nodes {t : FileTree}
    (h : ∀ e ∈ t.nodes.toList, ∀ name ∈ e.1, name.IsText) (r : SourceRemapper) (input : Path) :
    r.Spelled t input := by
  intro rel content _ hat _ name hname
  rcases mem_nodes_of_at? hat with hnil | hmem
  · rw [(List.append_eq_nil_iff.1 hnil).2] at hname
    cases hname
  · exact h _ hmem name (List.mem_append_right _ hname)

theorem pieces_lossy {rel : Location} (hne : rel ≠ []) (hentries : ∀ name ∈ rel, name.IsEntry) :
    (Files.Path.mk rel.lossy).pieces = rel.map Name.lossy := by
  refine Path.pieces_intercalate (by rwa [ne_eq, List.map_eq_nil_iff]) fun text htext => ?_
  obtain ⟨name, hname, rfl⟩ := List.mem_map.1 htext
  exact (hentries name hname).isName_lossy.noSlash

/-- A path falls apart into its names. Where those in a location are texts, they are the ones that
    the path spells. -/
theorem eq_map_ofText {rel : Location} {names : List String} (hrel : rel ≠ [])
    (hentries : ∀ name ∈ rel, name.IsEntry ∧ name.IsText) (hne : names ≠ [])
    (hnames : ∀ name ∈ names, IsName name) (h : rel.lossy = "/".intercalate names) :
    rel = names.map .ofText := by
  have hpieces := pieces_lossy hrel fun name hname => (hentries name hname).1
  rw [h, Path.pieces_intercalate hne fun name hname => (hnames name hname).noSlash] at hpieces
  rw [hpieces, Name.map_ofText_map_lossy fun name hname => (hentries name hname).2]

/-- Different locations have different paths if their names are texts. -/
theorem eq_of_lossy {rel other : Location} (hrel : rel ≠ []) (hother : other ≠ [])
    (hentries : ∀ name ∈ rel ++ other, name.IsEntry ∧ name.IsText)
    (h : rel.lossy = other.lossy) : rel = other := by
  obtain ⟨hleft, hright⟩ := List.forall_mem_append.1 hentries
  rw [eq_map_ofText hrel hleft (List.map_eq_nil_iff.not.2 hother) (List.forall_mem_map.2
    fun name hname => (hright name hname).1.isName_lossy) h]
  exact Name.map_ofText_map_lossy fun name hname => (hright name hname).2

section Reading

variable {t : FileTree} {input : Path} {files : List (String × Content)}

theorem exists_of_filesOf? (hfiles : filesOf? t input = some files) :
    ∃ node, t.stat input = .ok node := by
  rw [filesOf?] at hfiles
  by_cases hdir : t.isDir input = true
  · rw [FileTree.isDir] at hdir
    cases hstat : t.stat input with
    | ok node => exact ⟨node, rfl⟩
    | error f => rw [hstat] at hdir; cases hdir
  · rw [if_neg hdir] at hfiles
    obtain ⟨content, hcontent, -⟩ := Option.bind_eq_some_iff.1 hfiles
    obtain ⟨node, hstat, -⟩ := Outcome.bind_eq_ok.1 (Outcome.toOption_eq_some.1 hcontent)
    exact ⟨node, hstat⟩

variable (hplain : t.Plain) (horderly : Orderly t)
include hplain horderly

theorem entries_of_filesBelow {found : List (Location × Content)}
    (hfound : t.filesBelow input = .ok found) {file : Location × Content} (hfile : file ∈ found) :
    file.1 ≠ [] ∧ ∀ name ∈ file.1, name.IsEntry := by
  obtain ⟨hne, hat⟩ := (hplain.mem_filesBelow hfound).1 hfile
  refine ⟨hne, fun name hname => ?_⟩
  exact horderly.names (input.place ++ file.1) (by rw [hat]; exact Option.some_ne_none _) name
    (List.mem_append_right _ hname)

/-- The files of a directory are those at the locations below it, each with its path as it is
    shown. -/
theorem mem_filesOf?_directory (hdir : t.isDir input = true)
    (hfiles : filesOf? t input = some files) {path : String} {content : Content} :
    (path, content) ∈ files ↔ ∃ rel, rel ≠ [] ∧ (∀ name ∈ rel, name.IsEntry)
      ∧ path = Location.lossy rel ∧ t.at? (input.place ++ rel) = some (.file content) := by
  rw [filesOf?, if_pos hdir] at hfiles
  obtain ⟨found, hfound, rfl⟩ := Option.map_eq_some_iff.1 hfiles
  have hfound := Outcome.toOption_eq_some.1 hfound
  rw [List.mem_map]
  constructor
  · rintro ⟨⟨rel, content'⟩, hfile, heq⟩
    obtain ⟨rfl, rfl⟩ := Prod.mk.inj heq
    obtain ⟨hne, hentries⟩ := entries_of_filesBelow hplain horderly hfound hfile
    exact ⟨rel, hne, hentries, rfl, ((hplain.mem_filesBelow hfound).1 hfile).2⟩
  · rintro ⟨rel, hne, -, rfl, hat⟩
    exact ⟨(rel, content), (hplain.mem_filesBelow hfound).2 ⟨hne, hat⟩, rfl⟩

omit hplain in
/-- No path is read twice from an archive. -/
theorem nodup_archive (hdir : t.isDir input = false) (hfiles : filesOf? t input = some files) :
    (files.map Prod.fst).Nodup := by
  rw [filesOf?, hdir, if_neg Bool.false_ne_true] at hfiles
  obtain ⟨content, hcontent, hfiles⟩ := Option.bind_eq_some_iff.1 hfiles
  obtain ⟨members, hmembers, hfiles⟩ := Option.bind_eq_some_iff.1 hfiles
  obtain ⟨found, hfound, hfiles⟩ := Option.bind_eq_some_iff.1 hfiles
  obtain rfl := Option.some.inj hfiles
  have hnames : (members.map Archive.Member.name).Nodup := by
    cases content with
    | raw bytes => exact Archive.nodup_members? hmembers
    | archive entries =>
        obtain rfl := Option.some.inj hmembers
        obtain ⟨node, hstat, hnode⟩ := Outcome.bind_eq_ok.1 (Outcome.toOption_eq_some.1 hcontent)
        obtain ⟨loc, -, hat⟩ := FileTree.stat_eq_ok hstat
        cases node with
        | dir => cases hnode
        | link target => cases hnode
        | file content =>
            obtain rfl := Except.ok.inj hnode
            rw [List.map_map]
            exact horderly.archives loc entries hat
  rw [List.map_map]
  exact (Archive.select_eq_ok (Outcome.toOption_eq_some.1 hfound)).1.nodup hnames

/-- No path of a file that is carried over is read twice, where the names are texts. -/
theorem nodup_carried {r : SourceRemapper} (hspelled : r.Spelled t input)
    (hfiles : filesOf? t input = some files) :
    ((files.map Prod.fst).filter r.carriesOver).Nodup := by
  by_cases hdir : t.isDir input = true
  · rw [filesOf?, if_pos hdir] at hfiles
    obtain ⟨found, hfound, rfl⟩ := Option.map_eq_some_iff.1 hfiles
    have hfound := Outcome.toOption_eq_some.1 hfound
    have htexts : ∀ file ∈ found, r.carriesOver (Location.lossy file.1) = true →
        file.1 ≠ [] ∧ ∀ name ∈ file.1, name.IsEntry ∧ name.IsText := by
      intro file hfile hcarried
      obtain ⟨hne, hentries⟩ := entries_of_filesBelow hplain horderly hfound hfile
      have hat := ((hplain.mem_filesBelow hfound).1 hfile).2
      exact ⟨hne, fun name hname =>
        ⟨hentries name hname, hspelled file.1 file.2 hdir hat hcarried name hname⟩⟩
    rw [List.map_map, List.filter_map]
    refine List.pairwise_map.2 (((List.pairwise_map.1 (FileTree.filesBelow_nodup hfound)).sublist
      List.filter_sublist).imp_of_mem fun {a b} ha hb hne heq => hne ?_)
    obtain ⟨hfirst, htexts₁⟩ := htexts a (List.mem_filter.1 ha).1 (List.mem_filter.1 ha).2
    obtain ⟨hsecond, htexts₂⟩ := htexts b (List.mem_filter.1 hb).1 (List.mem_filter.1 hb).2
    exact eq_of_lossy hfirst hsecond (List.forall_mem_append.2 ⟨htexts₁, htexts₂⟩) heq
  · exact (nodup_archive horderly (Bool.eq_false_iff.2 hdir) hfiles).filter _

end Reading

/-- What is read from an archive has the name of a file, and the octets that it has there. -/
theorem file_of_filesOf? {t : FileTree} {input : Path} {files : List (String × Content)}
    (hdir : t.isDir input = false) (hfiles : filesOf? t input = some files) :
    ∀ file ∈ files, Archive.isDirName file.1 = false ∧ ∃ data, file.2 = .raw data := by
  rw [filesOf?, if_neg (by rw [hdir]; exact Bool.false_ne_true)] at hfiles
  obtain ⟨_, -, hfiles⟩ := Option.bind_eq_some_iff.1 hfiles
  obtain ⟨_, -, hfiles⟩ := Option.bind_eq_some_iff.1 hfiles
  obtain ⟨found, hfound, hfiles⟩ := Option.bind_eq_some_iff.1 hfiles
  obtain rfl := Option.some.inj hfiles
  intro file hfile
  obtain ⟨member, hmember, rfl⟩ := List.mem_map.1 hfile
  exact ⟨(Archive.select_eq_ok (Outcome.toOption_eq_some.1 hfound)).2 member hmember, member.2, rfl⟩

-- ── Sorting out ──────────────────────────────────────────────────────────────

/-- All units among the files are texts. -/
def UnitsAreTexts (files : List (String × Content)) : Prop :=
  ∀ file ∈ files, isUnit file.1 = true → ∃ text, Text.decodeUtf8 file.2.bytes = .ok text

instance (files : List (String × Content)) : Decidable (UnitsAreTexts files) :=
  decidable_of_iff (∀ file ∈ files, isUnit file.1 = true →
      (Text.decodeUtf8 file.2.bytes).toOption.isSome = true) <| by
    refine forall₂_congr fun file _ => imp_congr_right fun _ => ?_
    rw [Option.isSome_iff_exists]
    exact exists_congr fun text => Outcome.toOption_eq_some

/-- The units among files, with their texts. -/
def unitsOf (files : List (String × Content)) : List SourceFile :=
  files.filterMap fun file =>
    if isUnit file.1 then
      (Text.decodeUtf8 file.2.bytes).toOption.map fun text =>
        { path := file.1, text := String.ofList text }
    else none

/-- The files that are no units. -/
def resourcesOf (files : List (String × Content)) : List (String × Content) :=
  files.filter fun file => !isUnit file.1

theorem sortOut_of_texts {files : List (String × Content)} (h : UnitsAreTexts files) :
    sortOut files = .ok (unitsOf files, resourcesOf files) := by
  induction files with
  | nil => rfl
  | cons file later ih =>
      obtain ⟨path, content⟩ := file
      have hlater := ih fun file hfile => h file (List.mem_cons_of_mem _ hfile)
      rw [sortOut, unitsOf, List.filterMap_cons, ← unitsOf, resourcesOf, List.filter_cons,
        ← resourcesOf]
      by_cases hunit : isUnit path = true
      · obtain ⟨text, htext⟩ := h (path, content) List.mem_cons_self hunit
        dsimp only at htext ⊢
        rw [if_pos hunit, if_pos hunit, htext, hlater, hunit]
        rfl
      · dsimp only
        rw [if_neg hunit, if_neg hunit, hlater, Bool.eq_false_iff.2 hunit]
        rfl

theorem paths_unitsOf {files : List (String × Content)} (h : UnitsAreTexts files) :
    (unitsOf files).map SourceFile.path = (files.map Prod.fst).filter isUnit := by
  induction files with
  | nil => rfl
  | cons file later ih =>
      obtain ⟨path, content⟩ := file
      have hlater := ih fun file hfile => h file (List.mem_cons_of_mem _ hfile)
      rw [unitsOf, List.filterMap_cons, ← unitsOf, List.map_cons, List.filter_cons]
      by_cases hunit : isUnit path = true
      · obtain ⟨text, htext⟩ := h (path, content) List.mem_cons_self hunit
        dsimp only at htext ⊢
        rw [if_pos hunit, if_pos hunit, htext, ← hlater]
        rfl
      · dsimp only
        rw [if_neg hunit, if_neg hunit, hlater]

-- ── Answers ──────────────────────────────────────────────────────────────────

/-- The text that counts for a path: the last that is given. -/
def lastText? (answers : List SourceFile) (path : String) : Option String :=
  ((answers.filter fun file => file.path = path).getLast?).map SourceFile.text

/-- The two lists have the same paths, however often. -/
def SamePaths (answers units : List SourceFile) : Prop :=
  ∀ path, path ∈ answers.map SourceFile.path ↔ path ∈ units.map SourceFile.path

theorem lastText?_eq_none {answers : List SourceFile} {path : String} :
    lastText? answers path = none ↔ path ∉ answers.map SourceFile.path := by
  rw [lastText?, Option.map_eq_none_iff, List.getLast?_eq_none_iff, List.filter_eq_nil_iff,
    List.mem_map]
  constructor
  · rintro hnone ⟨file, hfile, heq⟩
    exact hnone file hfile (decide_eq_true heq)
  · intro hnone file hfile heq
    exact hnone ⟨file, hfile, of_decide_eq_true heq⟩

/-- Answers are taken for all units, each of which has another path, or one has none that is left.
    What is left in the end are the answers for other paths. -/
theorem takeAnswers_spec (answers : SortedMap String String) (units : List SourceFile) :
    match takeAnswers answers units with
    | .ok (taken, rest) =>
      (units.map SourceFile.path).Nodup
      ∧ (∀ path content, (path, content) ∈ taken ↔ path ∈ units.map SourceFile.path
        ∧ ∃ text, answers.get? path = some text ∧ content = .raw (Text.encodeUtf8 text.toList))
      ∧ (∀ path ∈ units.map SourceFile.path, answers.get? path ≠ none)
      ∧ ∀ path, rest.get? path
          = if path ∈ units.map SourceFile.path then none else answers.get? path
    | .error _ => (units.map SourceFile.path).Nodup →
        ∃ path ∈ units.map SourceFile.path, answers.get? path = none := by
  induction units generalizing answers with
  | nil =>
      refine ⟨List.nodup_nil, fun path content => ?_, (fun _ hmem => nomatch hmem), fun path => ?_⟩
      · simp
      · rw [List.map_nil, if_neg List.not_mem_nil]
  | cons unit later ih =>
      rw [takeAnswers]
      cases hanswer : answers.get? unit.path with
      | none => exact fun _ => ⟨unit.path, List.mem_cons_self, hanswer⟩
      | some text =>
          -- the later units find the other answers as they were, and none for this path
          have hother : ∀ path, path ≠ unit.path →
              (answers.erase unit.path).get? path = answers.get? path := by
            intro path hne
            rw [SortedMap.erase, SortedMap.get?_eraseWhere, if_neg]
            intro heq
            exact hne (Std.LawfulEqOrd.eq_of_compare (eq_of_beq heq)).symm
          have hself : (answers.erase unit.path).get? unit.path = none := by
            rw [SortedMap.erase, SortedMap.get?_eraseWhere, if_pos]
            exact beq_iff_eq.2 Std.ReflOrd.compare_self
          have hrest := ih (answers.erase unit.path)
          dsimp only
          cases htake : takeAnswers (answers.erase unit.path) later with
          | error fault =>
              rw [htake] at hrest
              intro hnodup
              obtain ⟨hnew, hlater⟩ := List.nodup_cons.1 hnodup
              obtain ⟨path, hpath, hnone⟩ := hrest hlater
              have hne : path ≠ unit.path := fun heq => hnew (heq ▸ hpath)
              exact ⟨path, List.mem_cons_of_mem _ hpath, hother path hne ▸ hnone⟩
          | ok out =>
              obtain ⟨taken, rest⟩ := out
              rw [htake] at hrest
              obtain ⟨hlater, hmem, hthere, hleft⟩ := hrest
              have hnew : unit.path ∉ later.map SourceFile.path :=
                fun hagain => hthere unit.path hagain hself
              have hne : ∀ path ∈ later.map SourceFile.path, path ≠ unit.path :=
                fun path hpath heq => hnew (heq ▸ hpath)
              refine ⟨List.nodup_cons.2 ⟨hnew, hlater⟩, fun path content => ?_,
                fun path hpath => ?_, fun path => ?_⟩
              · rw [List.mem_cons, List.map_cons, List.mem_cons, hmem, Prod.mk.injEq]
                by_cases heq : path = unit.path
                · rw [heq, hanswer]
                  simp [hnew]
                · rw [hother path heq]
                  simp [heq]
              · rcases List.mem_cons.1 hpath with rfl | hpath
                · rw [hanswer]
                  exact Option.some_ne_none _
                · rw [← hother path (hne path hpath)]
                  exact hthere path hpath
              · rw [hleft, List.map_cons]
                by_cases heq : path = unit.path
                · rw [if_pos (List.mem_cons.2 (.inl heq)), heq, if_neg hnew, hself]
                · rw [hother path heq]
                  simp [heq]

/-- **Answers can be used exactly when they have the paths of the units**, and no two units have
    one path; then the last text for a path counts. -/
theorem matchAnswers_spec (units answers : List SourceFile) :
    match matchAnswers units answers with
    | .ok sources => ((units.map SourceFile.path).Nodup ∧ SamePaths answers units)
        ∧ ∀ path content, (path, content) ∈ sources ↔ path ∈ units.map SourceFile.path
          ∧ ∃ text, lastText? answers path = some text
            ∧ content = .raw (Text.encodeUtf8 text.toList)
    | .error _ => ¬ ((units.map SourceFile.path).Nodup ∧ SamePaths answers units) := by
  have hlast : ∀ path, (SortedMap.ofList (answers.map fun file => (file.path, file.text))).get? path
      = lastText? answers path := fun path => SortedMap.get?_ofList_map _ _ _ path
  rw [matchAnswers]
  dsimp only
  generalize SortedMap.ofList (answers.map fun file => (file.path, file.text)) = byPath at hlast ⊢
  have hspec := takeAnswers_spec byPath units
  cases htake : takeAnswers byPath units with
  | error fault =>
      rw [htake] at hspec
      rintro ⟨hnodup, hsame⟩
      obtain ⟨path, hpath, hnone⟩ := hspec hnodup
      rw [hlast, lastText?_eq_none] at hnone
      exact hnone ((hsame path).2 hpath)
  | ok out =>
      obtain ⟨taken, rest⟩ := out
      rw [htake] at hspec
      obtain ⟨hnodup, hmem, hthere, hleft⟩ := hspec
      simp only [hlast] at hmem hthere hleft
      have hkeys : ∀ path, path ∈ rest.keys
          ↔ path ∈ answers.map SourceFile.path ∧ path ∉ units.map SourceFile.path := by
        intro path
        rw [SortedMap.mem_keys_iff, hleft]
        by_cases hunit : path ∈ units.map SourceFile.path
        · rw [if_pos hunit]
          simp [hunit]
        · rw [if_neg hunit, Option.isSome_iff_ne_none, ne_eq, lastText?_eq_none, not_not]
          exact (and_iff_left hunit).symm
      dsimp only [bind, Except.bind]
      cases hrest : rest.keys with
      | nil =>
          refine ⟨⟨hnodup, fun path => ⟨fun hanswer => ?_, fun hunit => ?_⟩⟩, hmem⟩
          · by_contra hunit
            have hkey := (hkeys path).2 ⟨hanswer, hunit⟩
            rw [hrest] at hkey
            cases hkey
          · by_contra hanswer
            exact hthere path hunit (lastText?_eq_none.2 hanswer)
      | cons extra more =>
          obtain ⟨hanswer, hunit⟩ := (hkeys extra).1 (hrest ▸ List.mem_cons_self)
          exact fun h => hunit ((h.2 extra).1 hanswer)

-- ── What is written ──────────────────────────────────────────────────────────

/-- The files that are written, by their paths. -/
def merged (pass : Bool) (sources others : List (String × Content)) : List (String × Content) :=
  (sources ++ if pass then others else []).mergeSort fun a b => (compare a.1 b.1).isLE

/-- What belongs in an output: the last text for every unit, and the resources if they are
    passed on. -/
def Expected (r : SourceRemapper) (files : List (String × Content)) (answers : List SourceFile)
    (path : String) (content : Content) : Prop :=
  (isUnit path = true ∧ path ∈ files.map Prod.fst ∧ ∃ text, lastText? answers path = some text
      ∧ content = .raw (Text.encodeUtf8 text.toList))
    ∨ (r.settings.passResources = true ∧ isUnit path = false ∧ (path, content) ∈ files)

theorem mem_resourcesOf {files : List (String × Content)} {file : String × Content} :
    file ∈ resourcesOf files ↔ file ∈ files ∧ isUnit file.1 = false := by
  rw [resourcesOf, List.mem_filter, Bool.not_eq_true']

section Merged

variable {files : List (String × Content)} (htexts : UnitsAreTexts files)
  {answers : List SourceFile} {sources : List (String × Content)}
  (hmatch : matchAnswers (unitsOf files) answers = .ok sources)
include htexts hmatch

/-- **What is written is what belongs there.** -/
theorem mem_merged_iff (r : SourceRemapper) {path : String} {content : Content} :
    (path, content) ∈ merged r.settings.passResources sources (resourcesOf files)
      ↔ r.Expected files answers path content := by
  have hspec := matchAnswers_spec (unitsOf files) answers
  rw [hmatch] at hspec
  rw [merged, (List.mergeSort_perm _ _).mem_iff, List.mem_append, hspec.2, paths_unitsOf htexts,
    List.mem_filter, Expected]
  refine or_congr (by tauto) ?_
  cases r.settings.passResources with
  | true => simp [mem_resourcesOf, and_comm]
  | false => simp

/-- No path is written twice: the units have different paths, and no other file is a unit. -/
theorem nodup_merged (r : SourceRemapper)
    (hnodup : ((files.map Prod.fst).filter r.carriesOver).Nodup) :
    ((merged r.settings.passResources sources (resourcesOf files)).map Prod.fst).Nodup := by
  have hspec := matchAnswers_spec (unitsOf files) answers
  rw [hmatch] at hspec
  refine ((List.mergeSort_perm _ _).map Prod.fst).nodup_iff.2 ?_
  rw [List.map_append, matchAnswers_names hmatch, List.nodup_append]
  refine ⟨hspec.1.1, ?_, fun path hpath other hother heq => ?_⟩
  · cases hpass : r.settings.passResources with
    | true =>
        have hall : (files.map Prod.fst).filter r.carriesOver = files.map Prod.fst :=
          List.filter_eq_self.2 fun path _ => by rw [carriesOver, hpass, Bool.or_true]
        rw [hall] at hnodup
        exact (List.filter_sublist.map Prod.fst).nodup hnodup
    | false => exact List.nodup_nil
  · rw [paths_unitsOf htexts, List.mem_filter] at hpath
    cases hpass : r.settings.passResources with
    | false =>
        rw [hpass] at hother
        cases hother
    | true =>
        rw [hpass] at hother
        obtain ⟨file, hfile, rfl⟩ := List.mem_map.1 hother
        have hunit := (mem_resourcesOf.1 hfile).2
        rw [← heq, hpath.2] at hunit
        cases hunit

/-- What is written is in order, and each path occurs once. -/
theorem increasing_merged (r : SourceRemapper)
    (hnodup : ((files.map Prod.fst).filter r.carriesOver).Nodup) :
    (merged r.settings.passResources sources (resourcesOf files)).Pairwise
      fun a b => compare a.1 b.1 = .lt := by
  have hsorted : (merged r.settings.passResources sources (resourcesOf files)).Pairwise
      fun a b => (compare a.1 b.1).isLE = true := by
    refine List.pairwise_mergeSort (fun a b c => Std.TransCmp.isLE_trans) (fun a b => ?_) _
    have hswap : compare b.1 a.1 = (compare a.1 b.1).swap := Std.OrientedCmp.eq_swap
    rw [hswap]
    cases compare a.1 b.1 <;> rfl
  have hdistinct : (merged r.settings.passResources sources (resourcesOf files)).Pairwise
      fun a b => a.1 ≠ b.1 := List.pairwise_map.1 (nodup_merged htexts hmatch r hnodup)
  refine (hsorted.and hdistinct).imp fun {a b} h => ?_
  cases hcompare : compare a.1 b.1 with
  | lt => rfl
  | eq => exact absurd (Std.LawfulEqOrd.eq_of_compare hcompare) h.2
  | gt =>
      have hle := h.1
      rw [hcompare] at hle
      cases hle

end Merged

end Remap.SourceRemapper

end Nomenclator
