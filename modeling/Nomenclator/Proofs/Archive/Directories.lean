import Nomenclator.Remap.Source
import Nomenclator.Proofs.Archive.Builder
import Nomenclator.Proofs.Decompile.Pool
import Nomenclator.Proofs.Files.Reach
import Nomenclator.Proofs.Remap.InPlace

/-! # Directories of archives — in front of all that is below them

    A directory leads to an entry if its name ends in a slash and the name of the
    entry goes on from it.  What is asked for on the way to a file are all the
    directories that lead to it (`mem_dirNames_iff`), the outer ones first.

    * **Order** — a builder has added every directory that leads to one of its entries.
      So a directory that is missing leads to none of them, and can come next
      (`Grounded.addDir`, and by induction on the files `Grounded.addFiles`);
    * **Layout** — the files in their order, every directory that leads to one of
      them once, and nothing else (`LaysOut`);
    * **Writers** — both lay their archives out in this way (`writers_lay_out`).  The
      writer of sources starts with its manifest, and so has no room for another file
      of this name. -/

namespace Nomenclator.Archive

open Files (ArchiveEntry)

-- ── Names ────────────────────────────────────────────────────────────────────

/-- The directory is on the way: its name ends in a slash, and the text goes on from it. -/
def LeadsTo (dir : String) (text : List Char) : Prop := EndsInSlash dir ∧ dir.toList <+: text

theorem not_leadsTo_nil {dir : String} : ¬ LeadsTo dir [] := by
  rintro ⟨hslash, hprefix⟩
  rw [EndsInSlash, List.prefix_nil.1 hprefix] at hslash
  cases hslash

theorem leadsTo_concat {dir : String} {text : List Char} {c : Char} :
    LeadsTo dir (text ++ [c])
      ↔ LeadsTo dir text ∨ (c = '/' ∧ dir = String.ofList (text ++ [c])) := by
  rw [LeadsTo, List.prefix_concat_iff]
  constructor
  · rintro ⟨hslash, hwhole | hprefix⟩
    · rw [EndsInSlash, hwhole, List.getLast?_concat] at hslash
      exact .inr ⟨Option.some.inj hslash, by rw [← hwhole, String.ofList_toList]⟩
    · exact .inl ⟨hslash, hprefix⟩
  · rintro (⟨hslash, hprefix⟩ | ⟨rfl, rfl⟩)
    · exact ⟨hslash, .inr hprefix⟩
    · exact ⟨by rw [EndsInSlash, String.toList_ofList, List.getLast?_concat],
        .inl String.toList_ofList⟩

theorem append_cons_reverse (before rest : List Char) (c : Char) :
    before.reverse ++ c :: rest = (c :: before).reverse ++ rest := by
  rw [List.reverse_cons, List.append_assoc, List.singleton_append]

/-- What is asked for leads to the whole text, but not to what has been read of it. -/
theorem mem_dirNamesFrom {dir : String} {before text : List Char} :
    dir ∈ dirNamesFrom before text
      ↔ LeadsTo dir (before.reverse ++ text) ∧ ¬ LeadsTo dir before.reverse := by
  induction text generalizing before with
  | nil =>
      rw [List.append_nil]
      exact ⟨fun h => absurd h List.not_mem_nil, fun h => absurd h.1 h.2⟩
  | cons c rest ih =>
      rw [dirNamesFrom, append_cons_reverse]
      by_cases hc : c = '/'
      · rw [if_pos hc, List.mem_cons, ih, List.reverse_cons, leadsTo_concat]
        constructor
        · rintro (rfl | ⟨hleads, hnot⟩)
          · refine ⟨⟨?_, ?_⟩, fun h => ?_⟩
            · rw [EndsInSlash, String.toList_ofList, List.getLast?_concat, hc]
            · rw [String.toList_ofList]
              exact List.prefix_append _ _
            · have hlength := h.2.length_le
              rw [String.toList_ofList, List.length_append, List.length_singleton] at hlength
              omega
          · exact ⟨hleads, fun h => hnot (.inl h)⟩
        · rintro ⟨hleads, hnot⟩
          refine or_iff_not_imp_left.2 fun hne => ⟨hleads, ?_⟩
          rintro (h | ⟨-, h⟩)
          · exact hnot h
          · exact hne h
      · rw [if_neg hc, ih, List.reverse_cons, leadsTo_concat, or_iff_left fun h => hc h.1]

/-- **What is asked for on the way to a file**: every prefix of its name that ends in a slash. -/
theorem mem_dirNames_iff {name dir : String} :
    dir ∈ dirNames name ↔ LeadsTo dir name.toList := by
  rw [dirNames, mem_dirNamesFrom]
  exact and_iff_left not_leadsTo_nil

-- ── Order ────────────────────────────────────────────────────────────────────

namespace Builder

/-- Every directory that leads to an entry has been added, and none stands behind an entry to
    which it leads. -/
structure Grounded (b : Builder) : Prop where
  added : ∀ e ∈ b.entries, ∀ dir, LeadsTo dir e.name.toList → dir ∈ b.dirs.keys
  ordered : b.entries.Pairwise fun earlier later => ¬ LeadsTo later.name earlier.name.toList

theorem grounded_empty : Grounded {} :=
  ⟨fun _ h => absurd h List.not_mem_nil, .nil⟩

variable {b b' : Builder}

/-- A directory that is missing leads to no entry. -/
theorem Grounded.addDir (h : b.Grounded) {dir : String} (hnew : dir ∉ b.dirs.keys)
    (hway : ∀ other, LeadsTo other dir.toList → other = dir ∨ other ∈ b.dirs.keys) :
    Grounded ⟨b.entries ++ [dirEntry dir], b.dirs.insert dir ()⟩ where
  added := by
    intro e he other hother
    refine SortedMap.mem_keys_insert.2 ?_
    rcases List.mem_append.1 he with hold | hlast
    · exact .inr (h.added e hold other hother)
    · rw [List.mem_singleton.1 hlast] at hother
      exact hway other hother
  ordered := by
    refine List.pairwise_append.2
      ⟨h.ordered, List.pairwise_singleton _ _, fun e he last hlast => ?_⟩
    rw [List.mem_singleton.1 hlast]
    exact fun hleads => hnew (h.added e he dir hleads)

/-- The directories on the way to a text, the outer ones first. -/
theorem Grounded.addDirs (h : b.Grounded) {before text : List Char}
    (hway : ∀ dir, LeadsTo dir before.reverse → dir ∈ b.dirs.keys)
    (hadd : b.addDirs (dirNamesFrom before text) = (true, b')) :
    b'.Grounded ∧ ∀ dir, LeadsTo dir (before.reverse ++ text) → dir ∈ b'.dirs.keys := by
  induction text generalizing b before with
  | nil =>
      obtain rfl := (Prod.mk.inj hadd).2
      rw [List.append_nil]
      exact ⟨h, hway⟩
  | cons c rest ih =>
      rw [append_cons_reverse]
      rw [dirNamesFrom] at hadd
      by_cases hc : c = '/'
      · rw [if_pos hc] at hadd
        generalize hdir : String.ofList (c :: before).reverse = dir at hadd
        -- reading on to a slash, only the directory that ends there is new on the way
        have hstep : ∀ other, LeadsTo other (c :: before).reverse →
            other = dir ∨ other ∈ b.dirs.keys := by
          intro other hother
          rw [List.reverse_cons] at hother hdir
          rcases leadsTo_concat.1 hother with hold | ⟨-, hnew⟩
          · exact .inr (hway other hold)
          · exact .inl (hnew.trans hdir)
        rcases addDirs_inv hadd with ⟨hthere, hadd⟩ | ⟨hnew, -, hadd⟩
        · refine ih h (fun other hother => ?_) hadd
          rcases hstep other hother with rfl | hold
          · exact hthere
          · exact hold
        · have htext : dir.toList = (c :: before).reverse := by
            rw [← hdir, String.toList_ofList]
          refine ih (h.addDir hnew fun other hother => hstep other (htext ▸ hother))
            (fun other hother => ?_) hadd
          exact SortedMap.mem_keys_insert.2 (hstep other hother)
      · rw [if_neg hc] at hadd
        refine ih h (fun other hother => ?_) hadd
        rw [List.reverse_cons, leadsTo_concat] at hother
        exact hway other (hother.resolve_right fun hslash => hc hslash.1)

theorem Grounded.addFile (h : b.Grounded) {name : String} {data : Bytes}
    (hplain : ¬ EndsInSlash name) (hadd : b.addFile name data = (true, b')) : b'.Grounded := by
  obtain ⟨b₁, hdirs, -, rfl⟩ := addFile_inv hadd
  obtain ⟨h₁, hway⟩ := h.addDirs (fun _ hleads => absurd hleads not_leadsTo_nil) hdirs
  refine ⟨fun e he dir hdir => ?_, List.pairwise_append.2
    ⟨h₁.ordered, List.pairwise_singleton _ _, fun e he last hlast => ?_⟩⟩
  · rcases List.mem_append.1 he with hold | hlast
    · exact h₁.added e hold dir hdir
    · rw [List.mem_singleton.1 hlast] at hdir
      exact hway dir hdir
  · rw [List.mem_singleton.1 hlast]
    exact fun hleads => hplain hleads.1

/-- Adding files leaves every directory in front of what is below it. -/
theorem Grounded.addFiles (h : b.Grounded) {files : List (String × Bytes)}
    (hplain : ∀ file ∈ files, ¬ EndsInSlash file.1) (hadd : b.addFiles files = (true, b')) :
    b'.Grounded := by
  induction files generalizing b with
  | nil => exact (Prod.mk.inj hadd).2 ▸ h
  | cons file later ih =>
      obtain ⟨b₁, hfile, hlater⟩ := addFiles_inv hadd
      exact ih (h.addFile (hplain file List.mem_cons_self) hfile)
        (fun other hother => hplain other (List.mem_cons_of_mem _ hother)) hlater

end Builder

-- ── Layout ───────────────────────────────────────────────────────────────────

/-- The entries are the files in their order, and every directory that leads to one of them
    once, in front of all that is below it. -/
structure LaysOut (entries : List ArchiveEntry) (files : List (String × Bytes)) : Prop where
  inOrder : (entries.filter fun e => ¬ EndsInSlash e.name) = files.map fileEntry
  dirs : ∀ e : ArchiveEntry, EndsInSlash e.name →
    (e ∈ entries ↔ e.data = [] ∧ ∃ file ∈ files, e.name.toList <+: file.1.toList)
  once : (entries.map ArchiveEntry.name).Nodup
  ordered : entries.Pairwise fun earlier later =>
    EndsInSlash later.name → ¬ later.name.toList <+: earlier.name.toList

namespace Builder

variable {b : Builder} {files : List (String × Bytes)}

theorem filter_plain_addFiles (hplain : ∀ file ∈ files, ¬ EndsInSlash file.1)
    (hadd : addFiles {} files = (true, b)) :
    (b.entries.filter fun e => ¬ EndsInSlash e.name) = files.map fileEntry :=
  filter_addFiles (fun _ hslash => decide_eq_false fun h => h hslash)
    (fun file hfile => decide_eq_true (hplain file hfile)) hadd

/-- An archive of files whose names do not end in a slash. -/
theorem laysOut_of_addFiles (hplain : ∀ file ∈ files, ¬ EndsInSlash file.1)
    (hnodup : (files.map Prod.fst).Nodup) (hadd : addFiles {} files = (true, b)) :
    LaysOut b.entries files
      ∧ ∀ dir, dir ∈ b.dirs.keys ↔ EndsInSlash dir ∧ dir ∈ b.entries.map ArchiveEntry.name := by
  obtain ⟨b', hadd', hlists⟩ := lists_empty.addFiles hplain hnodup
  obtain rfl := (Prod.mk.inj (hadd.symm.trans hadd')).2
  have hentry : ∀ e : ArchiveEntry, EndsInSlash e.name →
      (e ∈ b.entries ↔ e.data = [] ∧ e.name ∈ b.dirs.keys) := by
    intro e hslash
    rw [hlists.entries.mem_iff, List.mem_append, List.mem_map, List.mem_map]
    constructor
    · rintro (⟨file, hfile, rfl⟩ | ⟨dir, hdir, rfl⟩)
      · exact absurd hslash (hlists.plain file hfile)
      · exact ⟨rfl, hdir⟩
    · rintro ⟨hdata, hkey⟩
      exact .inr ⟨e.name, hkey, by rw [dirEntry, ← hdata]⟩
  refine ⟨⟨filter_plain_addFiles hplain hadd, fun e hslash => ?_,
    nodup_addFiles (b := {}) List.nodup_nil hadd, ?_⟩, fun dir => ⟨fun hkey => ?_, ?_⟩⟩
  · rw [hentry e hslash, hlists.added, List.nil_append, List.mem_flatMap]
    simp only [mem_dirNames_iff, LeadsTo, hslash, true_and]
  · exact (grounded_empty.addFiles hplain hadd).ordered.imp fun hnot hslash hprefix =>
      hnot ⟨hslash, hprefix⟩
  · have hslash := hlists.slash dir ((hlists.added dir).1 hkey)
    exact ⟨hslash, List.mem_map.2 ⟨dirEntry dir, (hentry (dirEntry dir) hslash).2 ⟨rfl, hkey⟩, rfl⟩⟩
  · rintro ⟨hslash, hname⟩
    obtain ⟨e, he, rfl⟩ := List.mem_map.1 hname
    exact ((hentry e hslash).1 he).2

/-- Files can be added to an empty archive exactly if they have names of their own. -/
theorem addFiles_empty_iff (hplain : ∀ file ∈ files, ¬ EndsInSlash file.1) :
    (addFiles {} files).1 = true ↔ (files.map Prod.fst).Nodup := by
  constructor
  · intro hflag
    obtain ⟨b, hadd⟩ : ∃ b, addFiles {} files = (true, b) := ⟨_, Prod.ext hflag rfl⟩
    have hnames := (nodup_addFiles (b := {}) List.nodup_nil hadd).sublist
      ((List.filter_sublist (p := fun e => ¬ EndsInSlash e.name)).map ArchiveEntry.name)
    rw [filter_plain_addFiles hplain hadd, List.map_map] at hnames
    exact hnames
  · intro hnodup
    obtain ⟨b, hadd, -⟩ := lists_empty.addFiles hplain hnodup
    rw [hadd]

end Builder

end Nomenclator.Archive

-- ── Writers ──────────────────────────────────────────────────────────────────

namespace Nomenclator.Decompile.SourceWriter

/-- Writes files in order, up to the first that cannot be appended. -/
def writeAll (w : SourceWriter) : List (String × Bytes) → Bool × SourceWriter
  | [] => (true, w)
  | (name, data) :: later =>
    match w.write name data with
    | (true, w) => w.writeAll later
    | (false, w) => (false, w)

variable {files : List (String × Bytes)}

theorem builder_writeAll (w : SourceWriter) (files : List (String × Bytes)) :
    ((w.writeAll files).1, (w.writeAll files).2.builder) = w.builder.addFiles files := by
  induction files generalizing w with
  | nil => rfl
  | cons file later ih =>
      obtain ⟨name, data⟩ := file
      rw [writeAll, write, Archive.Builder.addFiles]
      cases w.builder.addFile name data with
      | mk flag b =>
          cases flag with
          | true => exact ih _
          | false => rfl

/-- The manifest is the first file. -/
theorem builder_start (files : List (String × Bytes)) :
    (((start .empty).writeAll files).1, ((start .empty).writeAll files).2.builder)
      = Archive.Builder.addFiles {} ((manifestName, manifest) :: files) := by
  rw [builder_writeAll, ← List.singleton_append, Archive.Builder.addFiles_append,
    show Archive.Builder.addFiles {} [(manifestName, manifest)] = (true, (start .empty).builder)
      from wrote_start.built]

end Nomenclator.Decompile.SourceWriter

namespace Nomenclator.Archive

open Files (ArchiveEntry Content Path)
open Remap Remap.SourceRemapper
open Decompile.SourceWriter

/-- A file that can be created becomes an archive. -/
theorem ends_writeArchive_laysOut {files : List (String × Bytes)}
    (hplain : ∀ file ∈ files, ¬ EndsInSlash file.1) (hnodup : (files.map Prod.fst).Nodup)
    {members : List (String × Content)}
    (hmembers : members.map (fun member => (member.1, member.2.bytes)) = files) (path : Path)
    (b : Bench SourceRequest) :
    Act.Ends (writeArchive path members) b
      (fun _ b' => ∃ entries, b'.files.stat path = .ok (.file (.archive entries))
        ∧ LaysOut entries files)
      (fun e b' => b' = b ∧ ∃ fault, b.files.write path (.raw []) = .error fault
        ∧ e = .io path fault) := by
  obtain ⟨builder, hadd, -⟩ := Builder.lists_empty.addFiles hplain hnodup
  have hlays := (Builder.laysOut_of_addFiles hplain hnodup hadd).1
  rw [writeArchive, hmembers, hadd]
  refine Act.Ends.bind (Q := fun _ b₁ => b.files.write path (.raw []) = .ok b₁.files) ?_ ?_
  · rw [Act.change]
    refine Act.ends_get_bind ?_
    cases hwrite : b.files.write path (.raw []) with
    | ok t => exact ⟨rfl⟩
    | error fault => exact Act.ends_throw ⟨rfl, fault, rfl, rfl⟩
  · intro _ b₁ hcreated
    -- what could be created can be written again
    obtain ⟨t, hwrite⟩ := Files.FileTree.write_write hcreated (.archive builder.entries)
    dsimp only
    rw [Act.change]
    refine Act.ends_get_bind ?_
    rw [hwrite]
    exact ⟨builder.entries, Files.FileTree.stat_write hwrite, hlays⟩

/-- **Both writers lay out their archives.** Let the files have different names that do not end
    in a slash. An archive of remapped sources that can be created holds the files in their
    order and, once and in front of all that is below it, every directory that leads to one of
    them, and nothing else.

    The writer of sources, started with no directories, can write the files exactly if none has
    the name of the manifest. It then has laid out the manifest and the files in the same way,
    and the directories that count as added are those that it has written. -/
theorem writers_lay_out {files : List (String × Bytes)}
    (hplain : ∀ file ∈ files, ¬ EndsInSlash file.1) (hnodup : (files.map Prod.fst).Nodup) :
    (∀ (members : List (String × Content)) (path : Path) (b b' : Bench SourceRequest)
        (result : Except Remap.Error Unit),
      members.map (fun member => (member.1, member.2.bytes)) = files →
      (writeArchive path members).run.run b = (result, b') →
        (result = .ok () ∧ ∃ entries, b'.files.stat path = .ok (.file (.archive entries))
          ∧ LaysOut entries files)
        ∨ (b' = b ∧ ∃ fault, b.files.write path (.raw []) = .error fault
          ∧ result = .error (.io path fault)))
    ∧ (((start .empty).writeAll files).1 = true ↔ manifestName ∉ files.map Prod.fst)
    ∧ (manifestName ∉ files.map Prod.fst →
      let builder := ((start .empty).writeAll files).2.builder
      LaysOut builder.entries ((manifestName, manifest) :: files)
        ∧ ∀ dir, dir ∈ builder.dirs.keys
          ↔ EndsInSlash dir ∧ dir ∈ builder.entries.map ArchiveEntry.name) := by
  have hplain' : ∀ file ∈ (manifestName, manifest) :: files, ¬ EndsInSlash file.1 := by
    intro file hfile
    rcases List.mem_cons.1 hfile with rfl | hfile
    · decide
    · exact hplain file hfile
  have hnodup_iff : (((manifestName, manifest) :: files).map Prod.fst).Nodup
      ↔ manifestName ∉ files.map Prod.fst := by
    rw [List.map_cons, List.nodup_cons]
    exact and_iff_left hnodup
  have hbuilt := builder_start files
  refine ⟨fun members path b b' result hmembers hrun => ?_, ?_, fun hnew => ?_⟩
  · have hends := (ends_writeArchive_laysOut hplain hnodup hmembers path b).holds
    rw [hrun] at hends
    cases result with
    | ok _ => exact .inl ⟨rfl, hends⟩
    | error e =>
        obtain ⟨rfl, fault, hwrite, rfl⟩ := hends
        exact .inr ⟨rfl, fault, hwrite, rfl⟩
  · rw [← hnodup_iff, ← Builder.addFiles_empty_iff hplain', ← hbuilt]
  · refine Builder.laysOut_of_addFiles hplain' (hnodup_iff.2 hnew) ?_
    rw [← hbuilt, Prod.mk.injEq]
    refine ⟨?_, rfl⟩
    rw [← hnodup_iff, ← Builder.addFiles_empty_iff hplain', ← hbuilt] at hnew
    exact hnew

/-- Names with a directory in common, with an empty step, and with a slash in front. -/
def nestedFiles : List (String × Bytes) :=
  [("a/b/C", [1]), ("a/D", [2]), ("a//E", [3]), ("/F", []), ("META-INF/G", [4])]

theorem writers_lay_out_nested :
    (∃ b' entries,
      (writeArchive ⟨"s.jar"⟩ (nestedFiles.map fun file => (file.1, .raw file.2))).run.run
          { files := {} } = (.ok (), b')
        ∧ b'.files.stat ⟨"s.jar"⟩ = .ok (.file (.archive entries)) ∧ LaysOut entries nestedFiles)
    ∧ (let w := (start .empty).writeAll nestedFiles
      w.1 = true ∧ LaysOut w.2.builder.entries ((manifestName, manifest) :: nestedFiles)
        ∧ w.2.builder.entries.map ArchiveEntry.name
          = ["META-INF/", "META-INF/MANIFEST.MF", "a/", "a/b/", "a/b/C", "a/D", "a//", "a//E", "/",
            "/F", "META-INF/G"]) := by
  have hplain : ∀ file ∈ nestedFiles, ¬ EndsInSlash file.1 := by decide +kernel
  have hnodup : (nestedFiles.map Prod.fst).Nodup := by decide +kernel
  obtain ⟨hremapped, hwritten, hlays⟩ := writers_lay_out hplain hnodup
  refine ⟨?_, hwritten.2 (by decide +kernel), (hlays (by decide +kernel)).1, by decide +kernel⟩
  generalize hrun :
    (writeArchive ⟨"s.jar"⟩ (nestedFiles.map fun file => (file.1, .raw file.2))).run.run
      { files := {} } = out
  obtain ⟨result, b'⟩ := out
  rcases hremapped _ _ _ b' result (by rw [List.map_map]; exact List.map_id _) hrun with
    ⟨rfl, entries, hstat, hlaid⟩ | ⟨-, fault, hwrite, -⟩
  · exact ⟨b', entries, rfl, hstat, hlaid⟩
  · cases (show (.ok _ : Except Files.IoFault _) = .error fault from hwrite)

/-- A second file with the name of the manifest is refused. -/
theorem second_manifest_refused :
    let files : List (String × Bytes) := [(manifestName, [120])]
    let w := (start .empty).writeAll files
    (files.map Prod.fst).Nodup ∧ (∀ file ∈ files, ¬ EndsInSlash file.1)
      ∧ w.1 = false ∧ fileEntry (manifestName, [120]) ∉ w.2.builder.entries
      ∧ ¬ LaysOut w.2.builder.entries ((manifestName, manifest) :: files) := by
  refine ⟨by decide, by decide, by decide +kernel, by decide +kernel, fun h => ?_⟩
  exact absurd h.inOrder (by decide +kernel)

end Nomenclator.Archive
