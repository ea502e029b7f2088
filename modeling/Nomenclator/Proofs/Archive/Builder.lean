import Mathlib.Data.List.Dedup
import Nomenclator.Archive
import Nomenclator.Proofs.SortedMap

/-! # Archives that are being built — files, and directories once each

    A builder appends a file after the directories on the way to it, and skips the
    directories that it has added before.  As long as files have names of their own
    that do not end in a slash, nothing is refused: a directory can only clash with
    a directory.

    * **`Lists`** — the entries are the files that were added and one entry for each
      directory that was asked for;
    * `Lists.addDirs`, `Lists.addFile`, `Lists.addFiles` — each step is possible, and
      keeps this;
    * `addFiles_empty` — the whole archive, with the files in their order. -/

namespace Nomenclator.Archive

open Files (ArchiveEntry)

/-- The entry of a directory. -/
def dirEntry (dir : String) : ArchiveEntry := { name := dir, data := [] }

/-- The entry of a file. -/
def fileEntry (file : String × Bytes) : ArchiveEntry := { name := file.1, data := file.2 }

/-- Does the name end in a slash? -/
def EndsInSlash (name : String) : Prop := name.toList.getLast? = some '/'

instance (name : String) : Decidable (EndsInSlash name) :=
  inferInstanceAs (Decidable (name.toList.getLast? = some '/'))

/-- The directories on the way to a file are named with a slash at the end. -/
theorem endsInSlash_of_mem_dirNames {name dir : String} (h : dir ∈ dirNames name) :
    EndsInSlash dir := by
  have hfrom : ∀ (text before : List Char), dir ∈ dirNamesFrom before text → EndsInSlash dir := by
    intro text
    induction text with
    | nil =>
        intro before hmem
        exact nomatch hmem
    | cons c rest ih =>
        intro before hmem
        rw [dirNamesFrom] at hmem
        by_cases hc : c = '/'
        · rw [if_pos hc] at hmem
          rcases List.mem_cons.1 hmem with rfl | hmem
          · rw [EndsInSlash, String.toList_ofList, List.reverse_cons, List.getLast?_concat, hc]
          · exact ih _ hmem
        · rw [if_neg hc] at hmem
          exact ih _ hmem
  exact hfrom name.toList [] h

/-- An entry with a new name can be appended. -/
theorem append_eq_some {entries : List ArchiveEntry} {entry : ArchiveEntry}
    (h : ∀ e ∈ entries, e.name ≠ entry.name) :
    append entries entry = some (entries ++ [entry]) := by
  rw [append, if_neg]
  intro hany
  obtain ⟨e, he, heq⟩ := List.any_eq_true.1 hany
  exact h e he (eq_of_beq heq)

namespace Builder

/-- The entries of the builder are the files, and one entry for each of the directories, which
    may be listed repeatedly. -/
structure Lists (b : Builder) (files : List (String × Bytes)) (dirs : List String) : Prop where
  entries : b.entries.Perm (files.map fileEntry ++ b.dirs.keys.map dirEntry)
  added : ∀ dir, dir ∈ b.dirs.keys ↔ dir ∈ dirs
  slash : ∀ dir ∈ dirs, EndsInSlash dir
  plain : ∀ file ∈ files, ¬ EndsInSlash file.1

theorem lists_empty : Lists {} [] [] :=
  ⟨.nil, fun _ => Iff.rfl, (fun _ h => nomatch h), (fun _ h => nomatch h)⟩

variable {b : Builder} {files : List (String × Bytes)} {dirs : List String}

/-- An entry has the name of a file or of a directory. -/
theorem Lists.name_cases (h : b.Lists files dirs) {e : ArchiveEntry} (he : e ∈ b.entries) :
    (∃ file ∈ files, e.name = file.1) ∨ (e.name ∈ b.dirs.keys) := by
  rcases List.mem_append.1 (h.entries.mem_iff.1 he) with hfile | hdir
  · obtain ⟨file, hmem, rfl⟩ := List.mem_map.1 hfile
    exact .inl ⟨file, hmem, rfl⟩
  · obtain ⟨dir, hmem, rfl⟩ := List.mem_map.1 hdir
    exact .inr hmem

/-- A directory that is missing can be appended. -/
theorem Lists.addDir (h : b.Lists files dirs) {dir : String} (hslash : EndsInSlash dir)
    (hnew : dir ∉ b.dirs.keys) :
    append b.entries (dirEntry dir) = some (b.entries ++ [dirEntry dir])
      ∧ Lists ⟨b.entries ++ [dirEntry dir], b.dirs.insert dir ()⟩ files (dirs ++ [dir]) := by
  have hnone : b.dirs.get? dir = none := by
    rw [SortedMap.mem_keys_iff, Bool.not_eq_true, Option.isSome_eq_false_iff,
      Option.isNone_iff_eq_none] at hnew
    exact hnew
  have hkeys : (b.dirs.insert dir ()).keys.Perm (dir :: b.dirs.keys) :=
    (SortedMap.toList_insert_perm hnone ()).map Prod.fst
  refine ⟨append_eq_some fun e he heq => ?_, ?_, fun other => ?_, ?_, h.plain⟩
  · have hname : e.name = dir := heq
    rw [← hname] at hslash hnew
    rcases h.name_cases he with ⟨file, hmem, hfile⟩ | hkey
    · exact h.plain file hmem (hfile ▸ hslash)
    · exact hnew hkey
  · have hmoved : (b.entries ++ [dirEntry dir]).Perm
        (files.map fileEntry ++ (dir :: b.dirs.keys).map dirEntry) := by
      refine (h.entries.append_right _).trans ?_
      rw [List.append_assoc]
      exact (List.perm_append_singleton _ _).append_left _
    exact hmoved.trans ((hkeys.symm.map dirEntry).append_left _)
  · rw [hkeys.mem_iff, List.mem_cons, List.mem_append, List.mem_singleton, h.added other, or_comm]
  · intro other hother
    rcases List.mem_append.1 hother with hold | hlast
    · exact h.slash other hold
    · exact List.mem_singleton.1 hlast ▸ hslash

/-- Directories can always be added. -/
theorem Lists.addDirs (h : b.Lists files dirs) {more : List String}
    (hslash : ∀ dir ∈ more, EndsInSlash dir) :
    ∃ b', b.addDirs more = (true, b') ∧ b'.Lists files (dirs ++ more) := by
  induction more generalizing b dirs with
  | nil => exact ⟨b, rfl, (List.append_nil dirs).symm ▸ h⟩
  | cons dir later ih =>
      have hlater : ∀ other ∈ later, EndsInSlash other :=
        fun other hother => hslash other (List.mem_cons_of_mem _ hother)
      rw [Builder.addDirs, List.append_cons]
      by_cases hthere : b.dirs.contains dir = true
      · rw [if_pos hthere]
        -- asked for once more: the directory is there already
        have hmem : dir ∈ dirs := (h.added dir).1 (SortedMap.mem_keys_iff.2 hthere)
        refine ih ⟨h.entries, fun other => ?_, fun other hother => ?_, h.plain⟩ hlater
        · rw [h.added other, List.mem_append, List.mem_singleton, or_iff_left_of_imp]
          rintro rfl
          exact hmem
        · rcases List.mem_append.1 hother with hold | hlast
          · exact h.slash other hold
          · exact h.slash other (List.mem_singleton.1 hlast ▸ hmem)
      · rw [if_neg hthere]
        have hnew : dir ∉ b.dirs.keys := fun hmem => hthere (SortedMap.mem_keys_iff.1 hmem)
        obtain ⟨happend, hlists⟩ := h.addDir (hslash dir List.mem_cons_self) hnew
        dsimp only
        rw [show ({ name := dir, data := [] } : ArchiveEntry) = dirEntry dir from rfl, happend]
        exact ih hlists hlater

/-- A file with a name of its own can be added. -/
theorem Lists.addFile (h : b.Lists files dirs) {name : String} (hplain : ¬ EndsInSlash name)
    (hnew : ∀ file ∈ files, file.1 ≠ name) (data : Bytes) :
    ∃ b', b.addFile name data = (true, b')
      ∧ b'.Lists (files ++ [(name, data)]) (dirs ++ dirNames name) := by
  obtain ⟨b₁, hdirs, h₁⟩ := h.addDirs fun dir (hdir : dir ∈ dirNames name) =>
    endsInSlash_of_mem_dirNames hdir
  have happend : append b₁.entries (fileEntry (name, data))
      = some (b₁.entries ++ [fileEntry (name, data)]) := by
    refine append_eq_some fun e he heq => ?_
    have hname : e.name = name := heq
    rcases h₁.name_cases he with ⟨file, hmem, hfile⟩ | hkey
    · exact hnew file hmem (hfile.symm.trans hname)
    · rw [hname] at hkey
      exact hplain (h₁.slash name ((h₁.added name).1 hkey))
  refine ⟨{ b₁ with entries := b₁.entries ++ [fileEntry (name, data)] }, ?_, ?_, h₁.added,
    h₁.slash, fun file hfile => ?_⟩
  · rw [Builder.addFile, hdirs]
    dsimp only
    rw [show ({ name, data } : ArchiveEntry) = fileEntry (name, data) from rfl, happend]
  · refine (h₁.entries.append_right _).trans ?_
    rw [List.map_append, List.append_assoc, List.append_assoc]
    exact List.perm_append_comm.append_left _
  · rcases List.mem_append.1 hfile with hold | hlast
    · exact h₁.plain file hold
    · rw [List.mem_singleton.1 hlast]
      exact hplain

/-- Files are appended one after the other. -/
theorem addFiles_append (b : Builder) (first second : List (String × Bytes)) :
    b.addFiles (first ++ second) = match b.addFiles first with
      | (true, b') => b'.addFiles second
      | (false, b') => (false, b') := by
  induction first generalizing b with
  | nil => rfl
  | cons file later ih =>
      obtain ⟨name, data⟩ := file
      rw [List.cons_append, addFiles, addFiles]
      cases hadd : b.addFile name data with
      | mk flag b' =>
          cases flag with
          | true => exact ih b'
          | false => rfl

/-- **Files with names of their own can be added.** -/
theorem Lists.addFiles (h : b.Lists files dirs) {more : List (String × Bytes)}
    (hplain : ∀ file ∈ more, ¬ EndsInSlash file.1)
    (hnodup : ((files ++ more).map Prod.fst).Nodup) :
    ∃ b', b.addFiles more = (true, b')
      ∧ b'.Lists (files ++ more) (dirs ++ more.flatMap fun file => dirNames file.1) := by
  induction more generalizing b files dirs with
  | nil =>
      refine ⟨b, rfl, ?_⟩
      rw [List.append_nil, List.flatMap_nil, List.append_nil]
      exact h
  | cons file later ih =>
      obtain ⟨name, data⟩ := file
      have hnew : ∀ other ∈ files, other.1 ≠ name := by
        intro other hother
        rw [List.map_append, List.nodup_append] at hnodup
        exact hnodup.2.2 _ (List.mem_map_of_mem hother) _ (List.mem_map_of_mem List.mem_cons_self)
      obtain ⟨b₁, hadd, h₁⟩ := h.addFile (hplain _ List.mem_cons_self) hnew data
      rw [Builder.addFiles, hadd]
      rw [List.append_cons, List.flatMap_cons, ← List.append_assoc]
      rw [List.append_cons] at hnodup
      exact ih h₁ (fun other hother => hplain other (List.mem_cons_of_mem _ hother)) hnodup

/-- The directories that have been added are the different names on the list. -/
theorem Lists.keys_perm (h : b.Lists files dirs) : b.dirs.keys.Perm dirs.dedup := by
  refine (List.perm_ext_iff_of_nodup (SortedMap.keys_nodup _) dirs.nodup_dedup).2 fun dir => ?_
  rw [h.added dir, List.mem_dedup]

-- ── Order ────────────────────────────────────────────────────────────────────

/-- The entries that stand for files, in order. -/
def fileEntries (b : Builder) : List ArchiveEntry := b.entries.filter fun e => !e.isDir

theorem isDir_of_endsInSlash {e : ArchiveEntry} (h : EndsInSlash e.name) : e.isDir = true := by
  rw [ArchiveEntry.isDir, show e.name.toList.getLast? = some '/' from h]
  rfl

theorem not_endsInSlash {e : ArchiveEntry} (h : e.isDir = false) : ¬ EndsInSlash e.name := by
  intro hslash
  rw [isDir_of_endsInSlash hslash] at h
  cases h

theorem append_inv {entries entries' : List ArchiveEntry} {entry : ArchiveEntry}
    (h : append entries entry = some entries') :
    entries' = entries ++ [entry] ∧ ∀ e ∈ entries, e.name ≠ entry.name := by
  rw [append] at h
  split at h
  · cases h
  · rename_i hany
    refine ⟨(Option.some.inj h).symm, fun e he heq => hany ?_⟩
    exact List.any_eq_true.2 ⟨e, he, beq_iff_eq.2 heq⟩

section Inversion

variable {b' : Builder}

/-- Adding a directory skips it, or appends it under a new name. -/
theorem addDirs_inv {dir : String} {later : List String}
    (h : b.addDirs (dir :: later) = (true, b')) :
    (dir ∈ b.dirs.keys ∧ b.addDirs later = (true, b'))
      ∨ (dir ∉ b.dirs.keys ∧ (∀ e ∈ b.entries, e.name ≠ dir)
        ∧ addDirs ⟨b.entries ++ [dirEntry dir], b.dirs.insert dir ()⟩ later = (true, b')) := by
  rw [addDirs] at h
  by_cases hthere : b.dirs.contains dir = true
  · rw [if_pos hthere] at h
    exact .inl ⟨SortedMap.mem_keys_iff.2 hthere, h⟩
  · rw [if_neg hthere] at h
    dsimp only at h
    cases happend : append b.entries { name := dir, data := [] } with
    | none => rw [happend] at h; cases h
    | some entries =>
        obtain ⟨rfl, hnew⟩ := append_inv happend
        rw [happend] at h
        exact .inr ⟨fun hmem => hthere (SortedMap.mem_keys_iff.1 hmem), hnew, h⟩

/-- Adding a file adds the directories on the way, and appends it under a new name. -/
theorem addFile_inv {name : String} {data : Bytes} (h : b.addFile name data = (true, b')) :
    ∃ b₁, b.addDirs (dirNames name) = (true, b₁) ∧ (∀ e ∈ b₁.entries, e.name ≠ name)
      ∧ b' = { b₁ with entries := b₁.entries ++ [fileEntry (name, data)] } := by
  rw [addFile] at h
  cases hdirs : b.addDirs (dirNames name) with
  | mk flag b₁ =>
      rw [hdirs] at h
      cases flag with
      | false => cases h
      | true =>
          dsimp only at h
          cases happend : append b₁.entries { name, data } with
          | none => rw [happend] at h; cases h
          | some entries =>
              obtain ⟨rfl, hnew⟩ := append_inv happend
              rw [happend] at h
              exact ⟨b₁, rfl, hnew, (Prod.mk.inj h).2.symm⟩

theorem addFiles_inv {name : String} {data : Bytes} {later : List (String × Bytes)}
    (h : b.addFiles ((name, data) :: later) = (true, b')) :
    ∃ b₁, b.addFile name data = (true, b₁) ∧ b₁.addFiles later = (true, b') := by
  rw [addFiles] at h
  cases hfile : b.addFile name data with
  | mk flag b₁ =>
      rw [hfile] at h
      cases flag with
      | false => cases h
      | true => exact ⟨b₁, rfl, h⟩

end Inversion

section Kept

variable {b' : Builder} {keep : ArchiveEntry → Bool}

/-- Directories come between the files. -/
theorem filter_addDirs (hdrop : ∀ e, EndsInSlash e.name → keep e = false)
    (hslash : ∀ dir ∈ dirs, EndsInSlash dir) (h : b.addDirs dirs = (true, b')) :
    b'.entries.filter keep = b.entries.filter keep := by
  induction dirs generalizing b with
  | nil => rw [(Prod.mk.inj h).2]
  | cons dir later ih =>
      have hlater := fun other hother => hslash other (List.mem_cons_of_mem _ hother)
      rcases addDirs_inv h with ⟨-, h⟩ | ⟨-, -, h⟩
      · exact ih hlater h
      · rw [ih hlater h, List.filter_append, List.filter_singleton,
          hdrop (dirEntry dir) (hslash dir List.mem_cons_self), cond_false, List.append_nil]

/-- Files come in the order in which they are added. -/
theorem filter_addFiles (hdrop : ∀ e, EndsInSlash e.name → keep e = false)
    (hkeep : ∀ file ∈ files, keep (fileEntry file) = true) (h : b.addFiles files = (true, b')) :
    b'.entries.filter keep = b.entries.filter keep ++ files.map fileEntry := by
  induction files generalizing b with
  | nil => rw [(Prod.mk.inj h).2, List.map_nil, List.append_nil]
  | cons file later ih =>
      obtain ⟨b₂, hfile, hlater⟩ := addFiles_inv h
      obtain ⟨b₁, hdirs, -, rfl⟩ := addFile_inv hfile
      rw [ih (fun other hother => hkeep other (List.mem_cons_of_mem _ hother)) hlater,
        List.filter_append, List.filter_singleton, hkeep file List.mem_cons_self, cond_true,
        filter_addDirs hdrop (fun dir => endsInSlash_of_mem_dirNames) hdirs, List.append_assoc]
      rfl

theorem nodup_concat {entries : List ArchiveEntry} {entry : ArchiveEntry}
    (hnodup : (entries.map ArchiveEntry.name).Nodup) (hnew : ∀ e ∈ entries, e.name ≠ entry.name) :
    ((entries ++ [entry]).map ArchiveEntry.name).Nodup := by
  rw [List.map_append, List.nodup_append]
  refine ⟨hnodup, List.nodup_singleton _, fun name hname other hother heq => ?_⟩
  obtain ⟨e, he, rfl⟩ := List.mem_map.1 hname
  exact hnew e he (heq.trans (List.mem_singleton.1 hother))

theorem nodup_addDirs (hnodup : (b.entries.map ArchiveEntry.name).Nodup)
    (h : b.addDirs dirs = (true, b')) : (b'.entries.map ArchiveEntry.name).Nodup := by
  induction dirs generalizing b with
  | nil => exact (Prod.mk.inj h).2 ▸ hnodup
  | cons dir later ih =>
      rcases addDirs_inv h with ⟨-, h⟩ | ⟨-, hnew, h⟩
      · exact ih hnodup h
      · exact ih (nodup_concat hnodup hnew) h

/-- Entries have names of their own. -/
theorem nodup_addFiles (hnodup : (b.entries.map ArchiveEntry.name).Nodup)
    (h : b.addFiles files = (true, b')) : (b'.entries.map ArchiveEntry.name).Nodup := by
  induction files generalizing b with
  | nil => exact (Prod.mk.inj h).2 ▸ hnodup
  | cons file later ih =>
      obtain ⟨b₂, hfile, hlater⟩ := addFiles_inv h
      obtain ⟨b₁, hdirs, hnew, rfl⟩ := addFile_inv hfile
      exact ih (nodup_concat (nodup_addDirs hnodup hdirs) hnew) hlater

end Kept

theorem fileEntries_addFiles {b' : Builder}
    (hplain : ∀ file ∈ files, (fileEntry file).isDir = false)
    (h : b.addFiles files = (true, b')) :
    b'.fileEntries = b.fileEntries ++ files.map fileEntry := by
  refine filter_addFiles (fun e he => ?_) (fun file hfile => ?_) h
  · rw [isDir_of_endsInSlash he]
    rfl
  · rw [hplain file hfile]
    rfl

/-- **The archive of files with names of their own**: the files in order, and one entry for each
    directory on the way to one of them. -/
theorem addFiles_empty (hplain : ∀ file ∈ files, (fileEntry file).isDir = false)
    (hnodup : (files.map Prod.fst).Nodup) :
    ∃ b : Builder, addFiles {} files = (true, b) ∧ b.fileEntries = files.map fileEntry
      ∧ (b.entries.map ArchiveEntry.name).Nodup
      ∧ ∀ e ∈ b.entries, e.isDir = true →
          e.data = [] ∧ ∃ file ∈ files, e.name ∈ dirNames file.1 := by
  obtain ⟨b, hadd, hlists⟩ := lists_empty.addFiles
    (fun file hfile => not_endsInSlash (hplain file hfile)) hnodup
  refine ⟨b, hadd, ?_, nodup_addFiles (b := {}) List.nodup_nil hadd, fun e he hdir => ?_⟩
  · rw [fileEntries_addFiles hplain hadd]
    rfl
  · rcases List.mem_append.1 (hlists.entries.mem_iff.1 he) with hfile | hkey
    · obtain ⟨file, hmem, rfl⟩ := List.mem_map.1 hfile
      rw [hplain file hmem] at hdir
      cases hdir
    · obtain ⟨key, hmem, rfl⟩ := List.mem_map.1 hkey
      exact ⟨rfl, List.mem_flatMap.1 ((hlists.added key).1 hmem)⟩

end Builder

end Nomenclator.Archive
