import Mathlib.Data.List.Nodup
import Nomenclator.Decompile.Job
import Nomenclator.Proofs.Outcome
import Nomenclator.Proofs.SortedMap

/-! # The classes of a job — what is read, and what the decompiler is asked

    A job reads the class entries of its input: the members whose names end like that
    of a class; of several with one name the last counts (`ClassEntry`).  It calls
    its decompiler once for each of them, by increasing names.  A call tells the name
    of the entry, the name of the class, which is that of the entry without its
    ending, the position of the call, and what is told to all, and hands over the
    octets of the entry (`MakesCalls`).  This says all about the calls
    (`MakesCalls.eq_contexts`), and they are made like this (`makesCalls_contexts`). -/

namespace Nomenclator.Decompile

open Files (Path IoFault Content)

-- ── Class entries ────────────────────────────────────────────────────────────

/-- A name that ends like that of a class is not that of a directory. -/
theorem isDirName_of_isClass {name : String} (h : Decompiler.isClass name = true) :
    Archive.isDirName name = false := by
  obtain ⟨front, hfront⟩ := List.isSuffixOf_iff_suffix.1 h
  rw [Archive.isDirName, Files.ArchiveEntry.isDir, ← hfront, List.getLast?_append]
  rfl

/-- What is selected has the data that the members have, under each name in their order. -/
theorem select_data {wanted : String → Bool} {members : List Archive.Member}
    {files : List (String × Bytes)} (h : Archive.select wanted members = .ok files) {name : String}
    (hwanted : wanted name = true) (hdir : Archive.isDirName name = false) :
    (members.filter fun m => m.name = name).map Archive.Member.data
      = (files.filter fun file => file.1 = name).map fun file => .ok file.2 := by
  induction members generalizing files with
  | nil =>
      obtain rfl := Except.ok.inj h
      rfl
  | cons m later ih =>
      rw [Archive.select] at h
      split at h
      · exact nomatch h
      · split at h
        · next hskip =>
          have hne : ¬ m.name = name := by
            rintro rfl
            rw [hdir, hwanted] at hskip
            cases hskip
          rw [List.filter_cons_of_neg (by simpa using hne)]
          exact ih h
        · split at h
          · exact nomatch h
          · obtain ⟨data, hdata, h⟩ := Outcome.bind_eq_ok.1 h
            obtain ⟨rest, hrest, h⟩ := Outcome.bind_eq_ok.1 h
            obtain rfl := Except.ok.inj h
            by_cases hname : m.name = name
            · rw [List.filter_cons_of_pos (by simpa using hname),
                List.filter_cons_of_pos (by simpa using hname), List.map_cons, List.map_cons,
                ih hrest, hdata]
            · rw [List.filter_cons_of_neg (by simpa using hname),
                List.filter_cons_of_neg (by simpa using hname)]
              exact ih hrest

theorem select_names {wanted : String → Bool} {members : List Archive.Member}
    {files : List (String × Bytes)} (h : Archive.select wanted members = .ok files) :
    ∀ file ∈ files, wanted file.1 = true := by
  induction members generalizing files with
  | nil =>
      obtain rfl := Except.ok.inj h
      exact fun _ hfile => nomatch hfile
  | cons m later ih =>
      rw [Archive.select] at h
      split at h
      · exact nomatch h
      · split at h
        · exact ih h
        · next hwanted =>
          split at h
          · exact nomatch h
          · obtain ⟨data, -, h⟩ := Outcome.bind_eq_ok.1 h
            obtain ⟨rest, hrest, h⟩ := Outcome.bind_eq_ok.1 h
            obtain rfl := Except.ok.inj h
            intro file hfile
            rcases List.mem_cons.1 hfile with rfl | hfile
            · rw [Bool.or_eq_true, not_or] at hwanted
              cases hw : wanted m.name with
              | true => rfl
              | false => exact absurd (by rw [hw]; rfl) hwanted.2
            · exact ih hrest file hfile

/-- The archive has this class entry: the last member with the name has these octets. -/
def ClassEntry (members : List Archive.Member) (entryName : String) (octets : Bytes) : Prop :=
  Decompiler.isClass entryName = true
    ∧ ((members.filter fun m => m.name = entryName).getLast?).map Archive.Member.data
      = some (.ok octets)

/-- What is selected are the class entries. -/
theorem get?_select {members : List Archive.Member} {files : List (String × Bytes)}
    (h : Archive.select Decompiler.isClass members = .ok files) (entryName : String)
    (octets : Bytes) : (SortedMap.ofList files).get? entryName = some octets
      ↔ ClassEntry members entryName octets := by
  rw [SortedMap.get?_ofList, ClassEntry]
  by_cases hclass : Decompiler.isClass entryName = true
  · have hdata := congrArg List.getLast? (select_data h hclass (isDirName_of_isClass hclass))
    rw [List.getLast?_map, List.getLast?_map] at hdata
    rw [hdata]
    cases (files.filter fun file => file.1 = entryName).getLast? <;> simp [hclass]
  · refine iff_of_false (fun hsome => hclass ?_) fun hentry => hclass hentry.1
    obtain ⟨file, hfile, -⟩ := Option.map_eq_some_iff.1 hsome
    obtain ⟨hmem, heq⟩ := List.mem_filter.1 (List.mem_of_getLast? hfile)
    rw [← of_decide_eq_true heq]
    exact select_names h file hmem

namespace Decompiler

/-- A class entry is its binary name with the ending. -/
theorem eq_binaryName_append {entryName : String} (h : isClass entryName = true) :
    entryName = binaryName entryName ++ ".class" := by
  obtain ⟨front, hfront⟩ := List.isSuffixOf_iff_suffix.1 h
  have hname : binaryName entryName = String.ofList front := by
    rw [binaryName, ← hfront, List.length_append]
    exact congrArg String.ofList (List.take_left)
  rw [hname, ← String.toList_inj, String.toList_append, String.toList_ofList, hfront]

/-- The classes that a file holds. -/
def classesOf (path : Path) (content : Except IoFault Content) :
    Except Error (SortedMap String Bytes) :=
  match content with
  | .error fault => .error (.io path fault)
  | .ok content =>
    match content.members? with
    | none => .error (.archive path)
    | some members =>
      match Archive.select isClass members with
      | .error .closed => .error (.archive path)
      | .error .oversized => .error .taskFailure
      | .error (.damaged fault) => .error (.io path fault)
      | .ok classes => .ok (.ofList classes)

/-- Reading classes looks at the content of the file only. -/
theorem run_readClasses (path : Path) (desk : Desk) :
    (readClasses path).run.run desk = (classesOf path (desk.files.readContent path), desk) := by
  have hget : (get : Act Desk).run.run desk = (.ok desk, desk) := rfl
  rw [readClasses, Outcome.run_bind_of_ok hget, classesOf.eq_def]
  cases desk.files.readContent path with
  | error fault => rfl
  | ok content =>
      dsimp only
      cases content.members? with
      | none => rfl
      | some members =>
          dsimp only
          cases Archive.select isClass members with
          | ok classes => rfl
          | error fault => cases fault <;> rfl

theorem isClass_of_classesOf {path : Path} {content : Except IoFault Content}
    {classes : SortedMap String Bytes} (h : classesOf path content = .ok classes) {name : String}
    (hname : name ∈ classes.keys) : isClass name = true := by
  rw [classesOf.eq_def] at h
  split at h
  · exact nomatch h
  · split at h
    · exact nomatch h
    · split at h
      · exact nomatch h
      · exact nomatch h
      · exact nomatch h
      · next files hselect =>
        obtain rfl := Except.ok.inj h
        obtain ⟨data, hdata⟩ := Option.isSome_iff_exists.1 (SortedMap.mem_keys_iff.1 hname)
        rw [SortedMap.get?_ofList] at hdata
        obtain ⟨file, hfile, -⟩ := Option.map_eq_some_iff.1 hdata
        obtain ⟨hmem, heq⟩ := List.mem_filter.1 (List.mem_of_getLast? hfile)
        rw [← of_decide_eq_true heq]
        exact select_names hselect file hmem

end Decompiler

/-- The input of a job is an archive with these members, and its classes can be read. -/
structure Job.Reads (job : Job) (t : Files.FileTree) (members : List Archive.Member) : Prop where
  archive : ∃ content, t.readContent job.input = .ok content ∧ content.members? = some members
  classes : ∃ files, Archive.select Decompiler.isClass members = .ok files

/-- What is read are the class entries, by their names. -/
theorem Job.Reads.classesOf {job : Job} {t : Files.FileTree} {members : List Archive.Member}
    (h : job.Reads t members) : ∃ classes,
      Decompiler.classesOf job.input (t.readContent job.input) = .ok classes
      ∧ ∀ entryName octets, classes.get? entryName = some octets
        ↔ ClassEntry members entryName octets := by
  obtain ⟨content, hread, hmembers⟩ := h.archive
  obtain ⟨files, hselect⟩ := h.classes
  refine ⟨.ofList files, ?_, get?_select hselect⟩
  rw [Decompiler.classesOf.eq_def, hread]
  dsimp only
  rw [hmembers]
  dsimp only
  rw [hselect]

-- ── Calls ────────────────────────────────────────────────────────────────────

namespace Decompiler

/-- The calls that a job makes of its decompiler, if its input has these members: one for each
    class entry, with its octets, by increasing names; each is told the names of the entry and
    of the class, its position, and what is told to all. -/
structure MakesCalls (d : Decompiler) (job : Job) (members : List Archive.Member)
    (calls : List (ClassContext × Bytes)) : Prop where
  entries : ∀ entryName octets, (∃ c ∈ calls, c.1.entryName = entryName ∧ c.2 = octets)
    ↔ ClassEntry members entryName octets
  inOrder : calls.Pairwise fun a b => compare a.1.entryName b.1.entryName = .lt
  told : ∀ (i : Nat) c, calls[i]? = some c → c.1.entryName = c.1.binaryName ++ ".class"
    ∧ c.1.index = i ∧ c.1.options = d.settings.options ∧ c.1.libraries = job.libraries

theorem getElem?_contexts (d : Decompiler) (job : Job) (classes : SortedMap String Bytes) (i : Nat) :
    (d.contexts job classes)[i]? = classes.toList[i]?.map fun e =>
      ({ entryName := e.1, binaryName := binaryName e.1, index := i,
         options := d.settings.options, libraries := job.libraries }, e.2) := by
  rw [contexts, List.getElem?_map]
  by_cases hi : i < classes.toList.length
  · rw [List.getElem?_eq_getElem hi, List.getElem?_eq_getElem (by simpa [SortedMap.size] using hi),
      List.getElem_zip, List.getElem_range]
    rfl
  · rw [List.getElem?_eq_none (Nat.le_of_not_lt hi),
      List.getElem?_eq_none (by simpa [SortedMap.size] using hi)]
    rfl

theorem pairs_contexts (d : Decompiler) (job : Job) (classes : SortedMap String Bytes) :
    (d.contexts job classes).map (fun c => (c.1.entryName, c.2)) = classes.toList := by
  refine List.ext_getElem? fun i => ?_
  rw [List.getElem?_map, getElem?_contexts, Option.map_map]
  exact Option.map_id'

section Calls

variable {d : Decompiler} {job : Job} {members : List Archive.Member}
  {classes : SortedMap String Bytes} (hclasses : ∀ entryName octets,
    classes.get? entryName = some octets ↔ ClassEntry members entryName octets)
include hclasses

/-- **A job makes these calls.** -/
theorem makesCalls_contexts : d.MakesCalls job members (d.contexts job classes) := by
  have hpairs := d.pairs_contexts job classes
  refine ⟨fun entryName octets => ?_, ?_, fun i c hc => ?_⟩
  · rw [← hclasses, SortedMap.get?_eq_some_iff, ← hpairs, List.mem_map]
    simp only [Prod.mk.injEq]
  · have hincreasing := classes.increasing
    rw [← hpairs] at hincreasing
    exact List.pairwise_map.1 hincreasing
  · rw [getElem?_contexts] at hc
    obtain ⟨⟨entryName, octets⟩, hentry, rfl⟩ := Option.map_eq_some_iff.1 hc
    have hget := SortedMap.get?_eq_some_iff.2 (List.mem_of_getElem? hentry)
    exact ⟨eq_binaryName_append ((hclasses _ _).1 hget).1, rfl, rfl, rfl⟩

/-- **There are no other calls**: what is said about them determines them. -/
theorem MakesCalls.eq_contexts {calls : List (ClassContext × Bytes)}
    (h : d.MakesCalls job members calls) : calls = d.contexts job classes := by
  have hpairs : calls.map (fun c => (c.1.entryName, c.2)) = classes.toList := by
    refine SortedMap.eq_of_keysIncrease (List.pairwise_map.2 h.inOrder) classes.increasing ?_
    rintro ⟨entryName, octets⟩
    rw [List.mem_map, ← SortedMap.get?_eq_some_iff, hclasses, ← h.entries]
    simp only [Prod.mk.injEq]
  refine List.ext_getElem? fun i => ?_
  rw [getElem?_contexts, ← hpairs, List.getElem?_map, Option.map_map]
  cases hc : calls[i]? with
  | none => rfl
  | some c =>
      obtain ⟨⟨entryName, name, index, options, libraries⟩, octets⟩ := c
      obtain ⟨hname, rfl, rfl, rfl⟩ : entryName = name ++ ".class" ∧ index = i
        ∧ options = d.settings.options ∧ libraries = job.libraries := h.told i _ hc
      have hclass : isClass entryName = true :=
        ((h.entries entryName octets).1 ⟨_, List.mem_of_getElem? hc, rfl, rfl⟩).1
      obtain rfl : binaryName entryName = name := by
        have hboth := (eq_binaryName_append hclass).symm.trans hname
        rw [← String.toList_inj, String.toList_append, String.toList_append,
          List.append_left_inj, String.toList_inj] at hboth
        exact hboth
      rfl

end Calls

theorem length_contexts (d : Decompiler) (job : Job) (classes : SortedMap String Bytes) :
    (d.contexts job classes).length = classes.size := by
  rw [contexts, List.length_map, List.length_zip, List.length_range, SortedMap.size, Nat.min_self]

/-- Classes of an archive have names of their own. -/
theorem binaryNames_nodup (d : Decompiler) (job : Job) {path : Path}
    {content : Except IoFault Content} {classes : SortedMap String Bytes}
    (h : classesOf path content = .ok classes) :
    ((d.contexts job classes).map fun c => c.1.binaryName).Nodup := by
  have hnames : (d.contexts job classes).map (fun c => c.1.binaryName)
      = classes.keys.map binaryName := by
    rw [contexts, List.map_map, SortedMap.keys, List.map_map]
    have hsecond : ((List.range classes.size).zip classes.toList).map Prod.snd = classes.toList :=
      List.map_snd_zip (Nat.le_of_eq List.length_range.symm)
    rw [← hsecond, List.map_map, hsecond]
    rfl
  rw [hnames]
  refine List.Nodup.map_on (fun a ha b hb heq => ?_) (SortedMap.keys_nodup classes)
  rw [eq_binaryName_append (isClass_of_classesOf h ha),
    eq_binaryName_append (isClass_of_classesOf h hb), heq]

end Decompiler

end Nomenclator.Decompile
