import Nomenclator.Proofs.Decompile.Classes
import Nomenclator.Proofs.Decompile.Outcome
import Nomenclator.Proofs.Files.Alike
import Nomenclator.Proofs.Files.Room

/-! # Decompile jobs do not depend on their schedule

    A job prepares its outputs, lets its pool run, and puts what the pool has left
    into place.  Everything but the pool is done in one order, so a job whose pool
    has one outcome has one result.

    * **Plans** — what does not change during a job, given the calls that it makes;
    * **`Job.Writable`** — whatever the job puts in the places of its outputs gets
      there and stays.  Contents do not matter for this, so two dry runs decide; in
      plain trees it is enough that each path has room (`Job.writable_of_room`);
    * **Jobs** — what a job with such places does, given what its pool leaves; a job whose
      queue is larger than any channel crashes (`run_of_noChannel`);
    * `decompileWith_any_schedule` — the result, for every schedule of the pool. -/

namespace Nomenclator.Decompile

open Files (Path FileTree IoFault Content ArchiveEntry)
open Outcome (Agree)

-- ── Plans ────────────────────────────────────────────────────────────────────

/-- The plan of a job with these calls, whose archive can be created. -/
def Decompiler.planOf (d : Decompiler) (job : Job) (calls : List (ClassContext × Bytes)) : Plan where
  backend := d.backend
  classes := calls
  threads := d.settings.threads
  capacity := d.settings.queueCapacity
  created := .ok ()
  output := Decompiler.partialPath job.sources

/-- The plan of a job with these classes. -/
def Decompiler.plan (d : Decompiler) (job : Job) (classes : SortedMap String Bytes) : Plan :=
  d.planOf job (d.contexts job classes)

-- ── Places of outputs ────────────────────────────────────────────────────────

/-- The tree without an older output, if there is one. -/
def withoutStale (t : FileTree) (p : Path) : Except IoFault FileTree :=
  match t.removeFile p with
  | .error .notFound => .ok t
  | result => result

/-- The tree with the directory in which a path lies. -/
def withParent (t : FileTree) (p : Path) : Except IoFault FileTree :=
  match p.parent? with
  | none => .ok t
  | some parent =>
    match t.createDirAll parent with
    | (.ok (), t) => .ok t
    | (.error f, _) => .error f

namespace Job

/-- The tree when a job has made room for its outputs. -/
def ground (job : Job) (t : FileTree) : Except IoFault FileTree := do
  let t ← withoutStale t job.sources
  let t ← job.lineTable.elim (.ok t) (withoutStale t)
  withParent t job.sources

/-- The tree when the outputs of a job are in their places, where each of them gets by way of
    a temporary file. -/
def place (job : Job) (archive table : Content) (t : FileTree) : Except IoFault FileTree := do
  let t ← t.write (Decompiler.partialPath job.sources) (.raw [])
  let t ← t.write (Decompiler.partialPath job.sources) archive
  let t ← t.rename (Decompiler.partialPath job.sources) job.sources
  match job.lineTable with
  | none => .ok t
  | some dest =>
    let t ← withParent t dest
    let t ← t.write (temporaryPath dest) table
    t.rename (temporaryPath dest) dest

/-- Outputs with these contents get to their places, and both are found there. -/
def Keeps (job : Job) (archive table : Content) (ground : FileTree) : Prop :=
  match job.place archive table ground with
  | .error _ => False
  | .ok t => t.readContent job.sources = .ok archive
      ∧ ∀ dest ∈ job.lineTable, t.readContent dest = .ok table

/-- The outputs of a job can be written, and none of their paths stands for another, for the
    input or for a temporary file: the job can make room for them, which leaves the input as it
    is, and whatever is then put in their places is found there. -/
def Writable (job : Job) (t : FileTree) : Prop :=
  ∃ ground, job.ground t = .ok ground ∧ ground.readContent job.input = t.readContent job.input
    ∧ ∀ archive table, job.Keeps archive table ground

end Job

-- ── Dry runs ─────────────────────────────────────────────────────────────────

section DryRuns

variable {R : Content → Content → Prop} {t u : FileTree}

theorem withParent_alike (h : FileTree.Alike R t u) (p : Path) :
    Agree (FileTree.Alike R) (withParent t p) (withParent u p) := by
  rw [withParent, withParent]
  cases p.parent? with
  | none => exact .ok h
  | some parent =>
      dsimp only
      have hafter := h.createDirAll parent
      generalize t.createDirAll parent = after at hafter
      generalize u.createDirAll parent = after' at hafter
      obtain ⟨result, v⟩ := after
      obtain ⟨result', w⟩ := after'
      obtain ⟨rfl, hvw⟩ : result = result' ∧ FileTree.Alike R v w := hafter
      cases result with
      | ok _ => exact .ok hvw
      | error f => exact .error f

/-- Whether outputs get to their places does not depend on their contents. -/
theorem Job.place_alike (job : Job) (hrefl : ∀ c, R c c) {archive archive' table table' : Content}
    (harchive : R archive archive') (htable : R table table') (ground : FileTree) :
    Agree (FileTree.Alike R) (job.place archive table ground)
      (job.place archive' table' ground) := by
  refine ((FileTree.Alike.refl hrefl ground).write _ (hrefl _)).bind fun _ _ h => ?_
  refine (h.write _ harchive).bind fun _ _ h => ?_
  refine (h.rename _ _).bind fun _ _ h => ?_
  cases job.lineTable with
  | none => exact .ok h
  | some dest =>
      refine (withParent_alike h dest).bind fun _ _ h => ?_
      exact (h.write _ htable).bind fun _ _ h => h.rename _ _

/-- Contents for two dry runs: what is found after both is what was put there. -/
def samples : List (Content × Content) :=
  [(.archive [], .raw []), (.archive [{ name := "", data := [] }], .raw [0])]

/-- The contents of one run in the place of those of another. -/
def Replaced (old new : Content × Content) (c c' : Content) : Prop :=
  c' = c ∨ (c = old.1 ∧ c' = new.1) ∨ (c = old.2 ∧ c' = new.2)

theorem Replaced.swap {old new : Content × Content} {c c' : Content} (h : Replaced old new c c') :
    Replaced old.swap new.swap c c' :=
  h.imp_right Or.symm

/-- What is found in the place of two different contents is what was put there. -/
theorem eq_of_replaced {old old' new : Content × Content} {c : Content} (hdiffer : old.1 ≠ old'.1)
    (hold : old.1 ≠ old.2) (hold' : old'.1 ≠ old'.2) (h : Replaced old new old.1 c)
    (h' : Replaced old' new old'.1 c) : c = new.1 := by
  rcases h with hkept | ⟨-, hnew⟩ | ⟨hbad, -⟩
  · rcases h' with hkept' | ⟨-, hnew⟩ | ⟨hbad, -⟩
    · exact absurd (hkept.symm.trans hkept') hdiffer
    · exact hnew
    · exact absurd hbad hold'
  · exact hnew
  · exact absurd hbad hold

/-- What a dry run tells about a run with other contents: these get to their places as well,
    and one finds them there unless one finds what the dry run has put. -/
theorem Job.Keeps.of_sample {job : Job} {ground : FileTree} {sample : Content × Content}
    (h : job.Keeps sample.1 sample.2 ground) (archive table : Content) :
    ∃ t, job.place archive table ground = .ok t
      ∧ (∃ c, t.readContent job.sources = .ok c ∧ Replaced sample (archive, table) sample.1 c)
      ∧ ∀ dest ∈ job.lineTable, ∃ c, t.readContent dest = .ok c
          ∧ Replaced sample (archive, table) sample.2 c := by
  have hagree := job.place_alike (R := Replaced sample (archive, table)) (fun c => .inl rfl)
    (.inr (.inl ⟨rfl, rfl⟩)) (.inr (.inr ⟨rfl, rfl⟩)) ground
  rw [Job.Keeps] at h
  generalize job.place sample.1 sample.2 ground = rehearsed at h hagree
  generalize hplace : job.place archive table ground = placed at hagree
  have hread : ∀ {v w : FileTree} {p : Path} {c : Content},
      FileTree.Alike (Replaced sample (archive, table)) v w → v.readContent p = .ok c →
      ∃ c', w.readContent p = .ok c' ∧ Replaced sample (archive, table) c c' := by
    intro v w p c hvw hc
    have hcontents := hvw.readContent p
    rw [hc] at hcontents
    generalize w.readContent p = found at hcontents
    cases hcontents with
    | ok hR => exact ⟨_, rfl, hR⟩
  cases hagree with
  | error f => exact h.elim
  | ok halike =>
      exact ⟨_, rfl, hread halike h.1, fun dest hdest => hread halike (h.2 dest hdest)⟩

/-- **Two dry runs decide** whether outputs of any contents get to their places. -/
theorem Job.keeps_of_samples {job : Job} {ground : FileTree}
    (h : ∀ sample ∈ samples, job.Keeps sample.1 sample.2 ground) (archive table : Content) :
    job.Keeps archive table ground := by
  obtain ⟨t, hplace, ⟨c, hc, hfirst⟩, hlines⟩ :=
    (h (.archive [], .raw []) (by simp [samples])).of_sample archive table
  obtain ⟨t', hplace', ⟨c', hc', hsecond⟩, hlines'⟩ :=
    (h (.archive [{ name := "", data := [] }], .raw [0]) (by simp [samples])).of_sample archive table
  obtain rfl := Except.ok.inj (hplace.symm.trans hplace')
  rw [Job.Keeps, hplace]
  refine ⟨?_, fun dest hdest => ?_⟩
  · obtain rfl := Except.ok.inj (hc.symm.trans hc')
    have hnew := eq_of_replaced (by decide) (by decide) (by decide) hfirst hsecond
    rw [hc, hnew]
  · obtain ⟨c, hc, hfirst⟩ := hlines dest hdest
    obtain ⟨c', hc', hsecond⟩ := hlines' dest hdest
    obtain rfl := Except.ok.inj (hc.symm.trans hc')
    have hnew := eq_of_replaced (by decide) (by decide) (by decide) hfirst.swap hsecond.swap
    rw [hc, hnew]
    rfl

instance (job : Job) (archive table : Content) (ground : FileTree) :
    Decidable (job.Keeps archive table ground) :=
  match h : job.place archive table ground with
  | .error _ => .isFalse (by rw [Job.Keeps, h]; exact id)
  | .ok t =>
    decidable_of_iff (t.readContent job.sources = .ok archive
      ∧ ∀ dest ∈ job.lineTable, t.readContent dest = .ok table) (by rw [Job.Keeps, h])

instance (job : Job) (t : FileTree) : Decidable (job.Writable t) :=
  match h : job.ground t with
  | .error _ => .isFalse fun ⟨_, hground, _⟩ => nomatch h.symm.trans hground
  | .ok ground =>
    decidable_of_iff (ground.readContent job.input = t.readContent job.input
        ∧ ∀ sample ∈ samples, job.Keeps sample.1 sample.2 ground)
      ⟨fun ⟨hinput, hdry⟩ => ⟨ground, h, hinput, Job.keeps_of_samples hdry⟩,
        fun ⟨_, hground, hinput, hkeeps⟩ => Except.ok.inj (h.symm.trans hground) ▸
          ⟨hinput, fun sample _ => hkeeps sample.1 sample.2⟩⟩

end DryRuns

-- ── Outputs that have room ───────────────────────────────────────────────────

section Room

variable {t : FileTree} {job : Job}

/-- An older output can be removed from where there is room, and nothing else changes. -/
theorem withoutStale_room (h : t.Plain) {p : Path} (hroom : t.HasRoom p) :
    ∃ u, withoutStale t p = .ok u ∧ t.Keeping u ∧ t.Sheds u
      ∧ ∀ loc, loc ≠ p.place → u.at? loc = t.at? loc := by
  rw [withoutStale]
  rcases hroom.removeFile h with ⟨u, hremove⟩ | ⟨hremove, -⟩
  · rw [hremove]
    obtain ⟨hkeeping, hat⟩ := h.removeFile hremove
    exact ⟨u, rfl, hkeeping, FileTree.sheds_removeFile hremove,
      fun loc hne => (hat loc).trans (if_neg hne)⟩
  · rw [hremove]
    exact ⟨t, rfl, h.keeping, .refl t, fun _ _ => rfl⟩

theorem withParent_room (h : t.Plain) {p : Path} (hroom : t.HasRoom p) :
    withParent t p = .ok t := by
  obtain ⟨parent, hparent, hcreate⟩ := h.createDirAll_parent hroom.namesFile hroom.leads
  rw [withParent, hparent]
  simp only [hcreate]

namespace Job

/-- The paths at which a job writes. -/
def paths (job : Job) : List Path :=
  [job.sources, Decompiler.partialPath job.sources]
    ++ job.lineTable.toList.flatMap fun dest => [dest, temporaryPath dest]

/-- The input is a file, every path at which the job writes has room, and neither two of them
    nor one of them and the input have one place. -/
structure HasRoom (job : Job) (t : FileTree) : Prop where
  input : ∃ content, t.stat job.input = .ok (.file content)
  room : ∀ p ∈ job.paths, t.HasRoom p
  offInput : ∀ p ∈ job.paths, job.input.place ≠ p.place
  apart : job.paths.Pairwise fun p q => p.place ≠ q.place

/-- Room is made by removing older outputs, and nothing else changes. -/
theorem ground_of_room (h : t.Plain) (hroom : job.HasRoom t) : ∃ ground, job.ground t = .ok ground
    ∧ t.Keeping ground ∧ t.Sheds ground
    ∧ ground.at? job.input.place = t.at? job.input.place := by
  have hsources := hroom.room job.sources List.mem_cons_self
  obtain ⟨u, hstale, hkeeping, hsheds, hother⟩ := withoutStale_room h hsources
  obtain ⟨ground, hground, hkeeping', hsheds', hinput⟩ : ∃ ground,
      job.lineTable.elim (.ok u) (withoutStale u) = .ok ground ∧ t.Keeping ground
        ∧ t.Sheds ground ∧ ground.at? job.input.place = u.at? job.input.place := by
    cases hlines : job.lineTable with
    | none => exact ⟨u, rfl, hkeeping, hsheds, rfl⟩
    | some dest =>
        have hmem : dest ∈ job.paths := by simp [paths, hlines]
        have hdest := (hroom.room dest hmem).of_sheds h hkeeping hsheds
        obtain ⟨v, hstale', hkeeping', hsheds', hother'⟩ := withoutStale_room hkeeping.plain hdest
        exact ⟨v, hstale', hkeeping.trans hkeeping', hsheds.trans hsheds',
          hother' _ (hroom.offInput dest hmem)⟩
  refine ⟨ground, ?_, hkeeping', hsheds', ?_⟩
  · rw [Job.ground, hstale]
    simp only [bind, Except.bind]
    rw [hground]
    exact withParent_room hkeeping'.plain (hsources.of_sheds h hkeeping' hsheds')
  · exact hinput.trans (hother _ (hroom.offInput job.sources List.mem_cons_self))

/-- Outputs of any contents get to their places where the paths to them have room. -/
theorem keeps_of_room (h : t.Plain) (hroom : ∀ p ∈ job.paths, t.HasRoom p)
    (hapart : job.paths.Pairwise fun p q => p.place ≠ q.place) (archive table : Content) :
    job.Keeps archive table t := by
  have hsources := hroom job.sources (by simp [paths])
  have hpartial := hroom (Decompiler.partialPath job.sources) (by simp [paths])
  have hne : (Decompiler.partialPath job.sources).place ≠ job.sources.place :=
    Ne.symm ((List.pairwise_cons.1 hapart).1 _ (by simp))
  -- the file for the archive is created, filled and renamed
  obtain ⟨u, hcreate⟩ := hpartial.write h (.raw [])
  have hplain := (h.write hcreate).1.plain
  have hkeeps : ∀ p, t.HasRoom p → u.HasRoom p := fun _ hp => hp.after_write h hcreate
  obtain ⟨v, w, hwrite, hrename, hput⟩ :=
    (hkeeps _ hsources).put hplain (hkeeps _ hpartial) hne archive
  have hplain' := hput.keeping.plain
  have harchive := hput.stat hplain (hkeeps _ hsources)
  rw [Keeps, place, hcreate]
  simp only [bind, Except.bind, hwrite, hrename]
  cases hlines : job.lineTable with
  | none => exact ⟨FileTree.readContent_of_stat harchive, fun _ hdest => nomatch hdest⟩
  | some dest =>
      have hdest := hput.room hplain (hkeeps dest (hroom dest (by simp [paths, hlines])))
      have htemporary :=
        hput.room hplain (hkeeps _ (hroom (temporaryPath dest) (by simp [paths, hlines])))
      simp only [paths, hlines, Option.toList_some, List.flatMap_cons, List.flatMap_nil,
        List.append_nil, List.cons_append, List.nil_append, List.pairwise_cons, List.mem_cons,
        List.not_mem_nil, or_false, forall_eq_or_imp, forall_eq] at hapart
      obtain ⟨⟨-, hdestApart, htemporaryApart⟩, -, hne', -⟩ := hapart
      obtain ⟨x, y, hwrite', hrename', hput'⟩ := hdest.put hplain' htemporary (Ne.symm hne') table
      dsimp only
      rw [withParent_room hplain' hdest]
      simp only [hwrite', hrename']
      refine ⟨FileTree.readContent_of_stat
        (hput'.stat_other hplain' harchive hdestApart htemporaryApart), fun other hother => ?_⟩
      obtain rfl := Option.some.inj hother
      exact FileTree.readContent_of_stat (hput'.stat hplain' hdest)

/-- **Paths with room are enough.** In a plain tree the outputs of a job can be written if each
    path at which it writes has room, and no two paths of the job have one place. -/
theorem writable_of_room (h : t.Plain) (hroom : job.HasRoom t) : job.Writable t := by
  obtain ⟨ground, hground, hkeeping, hsheds, hinput⟩ := ground_of_room h hroom
  have hkept : ∀ p ∈ job.paths, ground.HasRoom p := fun p hp =>
    (hroom.room p hp).of_sheds h hkeeping hsheds
  refine ⟨ground, hground, ?_, keeps_of_room hkeeping.plain hkept hroom.apart⟩
  obtain ⟨content, hstat⟩ := hroom.input
  obtain ⟨hleads, hat⟩ := h.stat_file hstat
  rw [FileTree.readContent_of_stat hstat]
  exact FileTree.readContent_of_stat (FileTree.stat_of_resolve
    (h.resolve_keeps hkeeping.plain hkeeping.dirs hleads) (hinput.trans hat))

end Job

end Room

-- ── Jobs ─────────────────────────────────────────────────────────────────────

/-- The tree when a job has removed its archive, if it can. -/
def Job.closed (job : Job) (t : FileTree) : FileTree :=
  (t.removeFile (Decompiler.partialPath job.sources)).toOption.getD t

namespace Decompiler

variable {d : Decompiler} {job : Job} {desk : Desk} {t ground : FileTree}

theorem run_get (desk : Desk) : (get : Act Desk).run.run desk = (.ok desk, desk) := rfl

theorem run_report (level : Level) (message : String) (desk : Desk) :
    (report level message).run.run desk
      = (.ok (), { desk with log := desk.log ++ [{ level, message }] }) := rfl

theorem run_removeStale {p : Path} (h : withoutStale desk.files p = .ok t) :
    (removeStale p).run.run desk = (.ok (), { desk with files := t }) := by
  rw [removeStale, Outcome.run_bind_of_ok (run_get desk)]
  rw [withoutStale] at h
  cases hremove : desk.files.removeFile p with
  | ok t' =>
      rw [hremove] at h
      obtain rfl := Except.ok.inj h
      rfl
  | error f =>
      rw [hremove] at h
      cases f with
      | notFound =>
          obtain rfl := Except.ok.inj h
          rfl
      | _ => exact nomatch h

theorem run_settle {result : Except (Path × IoFault) Unit} (h : result = .ok ()) (t : FileTree)
    (desk : Desk) : (settle result t).run.run desk = (.ok (), { desk with files := t }) := by
  rw [h]
  rfl

/-- The directory of the sources is made, and then the classes are read. -/
theorem run_parent_readClasses (desk : Desk) {classes : SortedMap String Bytes}
    (hparent : withParent desk.files job.sources = .ok ground)
    (hread : classesOf job.input (ground.readContent job.input) = .ok classes) :
    (match job.sources.parent? with
      | some parent => do
        let desk ← get
        match desk.files.createDirAll parent with
        | (result, files) => do
          settle (result.mapError fun fault => (parent, fault)) files
          readClasses job.input
      | none => readClasses job.input : Act _).run.run desk
        = (.ok classes, { desk with files := ground }) := by
  have hclasses : (readClasses job.input).run.run { desk with files := ground }
      = (.ok classes, { desk with files := ground }) := by
    rw [run_readClasses]
    exact congrArg (·, _) hread
  rw [withParent] at hparent
  cases hp : job.sources.parent? with
  | none =>
      rw [hp] at hparent
      obtain rfl := Except.ok.inj hparent
      exact hclasses
  | some parent =>
      rw [hp] at hparent
      dsimp only at hparent ⊢
      rw [Outcome.run_bind_of_ok (run_get _)]
      cases hmade : desk.files.createDirAll parent with
      | mk result files =>
          rw [hmade] at hparent
          cases result with
          | error f => cases hparent
          | ok _ =>
              obtain rfl := Except.ok.inj hparent
              exact (Outcome.run_bind_of_ok (run_settle rfl files _) _).trans hclasses

/-- A job that can make room for its outputs reads the classes of its input. -/
theorem run_prepare {classes : SortedMap String Bytes} (hfile : desk.files.isFile job.input = true)
    (hground : job.ground desk.files = .ok ground)
    (hread : classesOf job.input (ground.readContent job.input) = .ok classes) :
    (prepare job).run.run desk = (.ok classes, { desk with files := ground }) := by
  obtain ⟨t₁, hsources, hground⟩ := Outcome.bind_eq_ok.1 hground
  obtain ⟨t₂, hlines, hparent⟩ := Outcome.bind_eq_ok.1 hground
  rw [prepare, Outcome.run_bind_of_ok (run_get desk), hfile]
  dsimp only
  rw [if_neg (by decide), Outcome.run_bind_of_ok (run_removeStale hsources)]
  have hlast := run_parent_readClasses { desk with files := t₂ } hparent hread
  cases hl : job.lineTable with
  | none =>
      rw [hl] at hlines
      obtain rfl := Except.ok.inj hlines
      exact hlast
  | some dest =>
      rw [hl] at hlines
      have hremove : (removeStale dest).run.run { desk with files := t₁ }
          = (.ok (), { desk with files := t₂ }) := run_removeStale hlines
      exact (Outcome.run_bind_of_ok hremove _).trans hlast

/-- A table that can be saved is put where it belongs. -/
theorem saveFile_eq_ok {u v w : FileTree} {dest : Path} {table : LineTable}
    (hparent : withParent t dest = .ok u)
    (hwrite : u.write (temporaryPath dest) (.raw (Text.encodeUtf8 table.render.toList)) = .ok v)
    (hrename : v.rename (temporaryPath dest) dest = .ok w) :
    table.saveFile t dest = (.ok (), w) := by
  rw [withParent] at hparent
  rw [LineTable.saveFile]
  cases hp : dest.parent? with
  | none =>
      rw [hp] at hparent
      obtain rfl := Except.ok.inj hparent
      dsimp only
      rw [FileTree.writeText, hwrite]
      dsimp only
      rw [hrename]
  | some parent =>
      rw [hp] at hparent
      dsimp only at hparent ⊢
      cases hmade : t.createDirAll parent with
      | mk result files =>
          rw [hmade] at hparent
          cases result with
          | error f => exact nomatch hparent
          | ok _ =>
              obtain rfl := Except.ok.inj hparent
              dsimp only [Except.mapError]
              rw [FileTree.writeText, hwrite]
              dsimp only
              rw [hrename]

theorem run_change {p : Path} {operation : FileTree → Except IoFault FileTree}
    (h : operation desk.files = .ok t) :
    (change p operation).run.run desk = (.ok (), { desk with files := t }) := by
  rw [change, Outcome.run_bind_of_ok (run_get desk), h]
  rfl

/-- What a pool leaves is put in the places of the outputs. -/
theorem run_commit {pool : Pool} {w : SourceWriter} {u : FileTree} (count sources bytes : Nat)
    (hplace : job.place (.archive w.builder.entries)
      (.raw (Text.encodeUtf8 pool.lines.render.toList)) ground = .ok u)
    (hcreated : ground.write (partialPath job.sources) (.raw []) = .ok desk.files) :
    ∃ log, (commit job count pool w sources bytes).run.run desk
      = (.ok { classes := count, sourcesWritten := sources, sourceBytes := bytes,
               directories := w.builder.dirs.size,
               lineTableClasses := pool.lines.classes.size }, { files := u, log }) := by
  obtain ⟨t₁, hfirst, hplace⟩ := Outcome.bind_eq_ok.1 hplace
  obtain rfl := Except.ok.inj (hcreated.symm.trans hfirst)
  obtain ⟨t₂, harchive, hplace⟩ := Outcome.bind_eq_ok.1 hplace
  obtain ⟨t₃, hrename, hplace⟩ := Outcome.bind_eq_ok.1 hplace
  rw [commit]
  dsimp only
  have hwritten : (change (partialPath job.sources) fun t =>
      t.write (partialPath job.sources) (.archive w.builder.entries)).run.run desk
        = (.ok (), { desk with files := t₂ }) := run_change harchive
  have hmoved : (change job.sources fun t =>
      t.rename (partialPath job.sources) job.sources).run.run { desk with files := t₂ }
        = (.ok (), { desk with files := t₃ }) := run_change hrename
  rw [Outcome.run_bind_of_ok hwritten, Outcome.run_bind_of_ok hmoved]
  cases hl : job.lineTable with
  | none =>
      rw [hl] at hplace
      obtain rfl := Except.ok.inj hplace
      exact ⟨_, rfl⟩
  | some dest =>
      rw [hl] at hplace
      obtain ⟨t₄, hparent, hplace⟩ := Outcome.bind_eq_ok.1 hplace
      obtain ⟨t₅, hwrite, hlast⟩ := Outcome.bind_eq_ok.1 hplace
      have hsaved : pool.lines.saveFile t₃ dest = (.ok (), u) :=
        saveFile_eq_ok hparent hwrite hlast
      dsimp only
      rw [Outcome.run_bind_of_ok (run_get _)]
      dsimp only
      rw [hsaved]
      dsimp only
      rw [Outcome.run_bind_of_ok (run_settle rfl u _)]
      exact ⟨_, rfl⟩

theorem run_createPartial {p : Path} (h : desk.files.write p (.raw []) = .ok t) :
    (createPartial p).run.run desk = (.ok (.ok ()), { desk with files := t }) := by
  rw [createPartial, Outcome.run_bind_of_ok (run_get desk), h]
  rfl

/-- Removing the archive never fails. -/
theorem run_removePartial (job : Job) (desk : Desk) :
    ∃ log, (removePartial (partialPath job.sources)).run.run desk
      = (.ok (), { files := job.closed desk.files, log }) := by
  rw [removePartial, Outcome.run_bind_of_ok (run_get desk), Job.closed]
  cases desk.files.removeFile (partialPath job.sources) with
  | ok t => exact ⟨_, rfl⟩
  | error fault => cases fault <;> exact ⟨_, rfl⟩

theorem run_makeChannel {capacity : Nat} (h : capacity ≤ channelLimit) (p : Path) (desk : Desk) :
    (makeChannel capacity p).run.run desk = (.ok (), desk) := by
  rw [makeChannel, if_neg (Nat.not_lt.2 h)]
  rfl

/-- A job that has prepared crashes, if its queue is larger than any channel. -/
theorem run_of_noChannel (runPool : Plan → Pool) (h : channelLimit < d.settings.queueCapacity)
    {classes : SortedMap String Bytes} {after : Desk}
    (hprepare : (prepare job).run.run desk = (.ok classes, after)) :
    ∃ log, (d.decompileWith runPool job).run.run desk
      = (.error .noChannel, { files := job.closed after.files, log }) := by
  obtain ⟨log, hremove⟩ := run_removePartial job { after with log := after.log ++ [_] }
  refine ⟨log, ?_⟩
  rw [decompileWith, Outcome.run_bind_of_ok hprepare]
  dsimp only
  rw [Outcome.run_bind_of_ok (run_report _ _ _)]
  refine Outcome.run_bind_of_error ?_ _
  rw [makeChannel, if_pos h]
  exact Outcome.run_bind_of_ok hremove _

/-- A job whose pool comes to a good end puts what the pool leaves in place. -/
theorem run_decompileWith {runPool : Plan → Pool} {classes : SortedMap String Bytes}
    {w : SourceWriter} {sources bytes : Nat} {u : FileTree}
    (hchannel : d.settings.queueCapacity ≤ channelLimit)
    (hprepare : (prepare job).run.run desk = (.ok classes, { desk with files := ground }))
    (houtcome : (runPool (d.plan job classes)).outcome = .ok (w, sources, bytes))
    (hplace : job.place (.archive w.builder.entries)
      (.raw (Text.encodeUtf8 (runPool (d.plan job classes)).lines.render.toList)) ground = .ok u) :
    ∃ log, (d.decompileWith runPool job).run.run desk
      = (.ok { classes := classes.size, sourcesWritten := sources, sourceBytes := bytes,
               directories := w.builder.dirs.size,
               lineTableClasses := (runPool (d.plan job classes)).lines.classes.size },
          { files := u, log }) := by
  obtain ⟨t₁, hcreated, -⟩ := Outcome.bind_eq_ok.1 hplace
  have hpartial : ∀ log, (createPartial (partialPath job.sources)).run.run { files := ground, log }
      = (.ok (.ok ()), { files := t₁, log }) := fun log => run_createPartial hcreated
  rw [decompileWith, Outcome.run_bind_of_ok hprepare]
  dsimp only
  rw [Outcome.run_bind_of_ok (run_report _ _ _), Outcome.run_bind_of_ok (run_makeChannel hchannel _ _),
    Outcome.run_bind_of_ok (hpartial _)]
  have hplan : (⟨d.backend, d.contexts job classes, d.settings.threads, d.settings.queueCapacity,
      .ok (), partialPath job.sources⟩ : Plan) = d.plan job classes := rfl
  rw [hplan, houtcome]
  exact run_commit classes.size sources bytes hplace hcreated

-- ── Every schedule ───────────────────────────────────────────────────────────

theorem isFile_of_classesOf {classes : SortedMap String Bytes} {p : Path}
    (h : classesOf p (desk.files.readContent p) = .ok classes) : desk.files.isFile p = true := by
  cases hread : desk.files.readContent p with
  | error fault =>
      rw [hread] at h
      exact nomatch h
  | ok content =>
      obtain ⟨node, hstat, hnode⟩ := Outcome.bind_eq_ok.1 hread
      rw [FileTree.isFile, hstat]
      cases node with
      | file _ => rfl
      | dir => cases hnode
      | link _ => cases hnode

/-- Valid settings give a thread and room in the channel. -/
theorem pos_of_validate {settings : Settings} (h : settings.validate = .ok ()) :
    0 < settings.threads ∧ 0 < settings.queueCapacity := by
  rw [Settings.validate] at h
  split at h
  · exact nomatch h
  · next hthreads =>
    split at h
    · exact nomatch h
    · next hcapacity => exact ⟨by omega, Nat.pos_of_ne_zero hcapacity⟩

theorem smooth_plan {classes : SortedMap String Bytes} {p : Path} {content : Except IoFault Content}
    (hclasses : classesOf p content = .ok classes)
    (hanswers : ∀ c ∈ d.contexts job classes,
      (∃ source, d.backend.run c.1 c.2 = .source source) ∨ d.backend.run c.1 c.2 = .nothing)
    (hpaths : ((d.plan job classes).sources.map DecompiledClass.outputPath).Nodup) :
    (d.plan job classes).Smooth where
  created := rfl
  answers := by
    intro c hc
    rw [Plan.answer]
    rcases hanswers c hc with ⟨source, hrun⟩ | hrun
    · exact congrArg _ hrun
    · exact congrArg _ hrun
  paths := hpaths
  names := d.binaryNames_nodup job hclasses

/-- The job has returned the figures of a plan, and its outputs hold what the plan yields. -/
structure Delivered (plan : Plan) (job : Job) (result : Except Error Stats × Desk) : Prop where
  stats : result.1 = .ok plan.stats
  sources : ∃ entries, result.2.files.readContent job.sources = .ok (.archive entries)
    ∧ entries.Perm plan.entries
  lines : ∀ dest ∈ job.lineTable, result.2.files.readContent dest
    = .ok (.raw (Text.encodeUtf8 plan.lineTable.render.toList))

/-- Whoever brings the pool of a job to its end, the job delivers what its plan yields. -/
theorem delivered_of_ended {classes : SortedMap String Bytes}
    (hchannel : d.settings.queueCapacity ≤ channelLimit) (hplaces : job.Writable desk.files)
    (hclasses : classesOf job.input (desk.files.readContent job.input) = .ok classes)
    (hplan : (d.plan job classes).Smooth) {runPool : Plan → Pool} {events : List Event}
    (hrun : (Pool.initial (d.plan job classes)).follow (d.plan job classes) events
      = some (runPool (d.plan job classes)))
    (hended : (runPool (d.plan job classes)).ended = true) :
    Delivered (d.plan job classes) job ((d.decompileWith runPool job).run.run desk) := by
  obtain ⟨ground, hground, hinput, hkeeps⟩ := hplaces
  obtain ⟨w, houtcome, hentries, hdirs, hlines⟩ := outcome_of_ended hplan hrun hended
  have hprepare := run_prepare (isFile_of_classesOf hclasses) hground (hinput ▸ hclasses)
  have hkept := hkeeps (.archive w.builder.entries)
    (.raw (Text.encodeUtf8 (runPool (d.plan job classes)).lines.render.toList))
  rw [Job.Keeps] at hkept
  split at hkept
  · exact hkept.elim
  · next u hplace =>
    obtain ⟨log, hresult⟩ := run_decompileWith hchannel hprepare houtcome hplace
    rw [hresult]
    refine ⟨?_, ⟨_, hkept.1, hentries⟩, ?_⟩
    · have hreports : (d.plan job classes).lineTable.classes.size
          = (d.plan job classes).stats.lineTableClasses :=
        (SortedMap.toList_ofList_perm hplan.reports_nodup).length_eq
      rw [hdirs, hlines, hreports, ← d.length_contexts job classes]
      rfl
    · rw [← hlines]
      exact hkept.2

/-- The line table of a plan holds the classes for which lines were reported, each with its
    report put together. -/
theorem get?_lineTable {plan : Plan} (h : plan.Smooth) (name : String) (rows : LineRows) :
    plan.lineTable.classes.get? name = some rows
      ↔ ∃ c ∈ plan.classes, c.1.binaryName = name ∧ ∃ source report,
          plan.backend.run c.1 c.2 = .source source ∧ source.report = some report
            ∧ report.compose = rows := by
  rw [SortedMap.get?_eq_some_iff, Plan.lineTable,
    (SortedMap.toList_ofList_perm h.reports_nodup).mem_iff, Plan.reports, List.mem_filterMap]
  refine exists_congr fun c => and_congr_right fun _ => ?_
  rw [Answer.lines?, Plan.answer]
  cases plan.backend.run c.1 c.2 with
  | source s => simp [Answer.source?, and_left_comm]
  | nothing => simp [Answer.source?]
  | failure chain => simp [Answer.source?]
  | crash => simp [Answer.source?]

/-- The sources of a plan are those that its calls have given. -/
theorem mem_sources {plan : Plan} {source : DecompiledClass} :
    source ∈ plan.sources ↔ ∃ c ∈ plan.classes, plan.backend.run c.1 c.2 = .source source := by
  rw [Plan.sources, List.mem_filterMap]
  refine exists_congr fun c => and_congr_right fun _ => ?_
  rw [Plan.answer]
  cases plan.backend.run c.1 c.2 <;> simp [Answer.source?]

/-- A decompiler for the witness: a class of the top level has no source of its own, and lines
    are reported for the class `A`. -/
def packaged : Decompiler where
  backend := {
    name := "packaged"
    run := fun context _ =>
      match context.entryName with
      | "p/A.class" => .source {
          packageName := "p", className := "A", source := "class A",
          report := some ⟨.ofList [(0, 3), (1, 4)], .ofList [(0, 1), (1, 2)]⟩ }
      | "p/B.class" => .source { packageName := "p", className := "B", source := "class B" }
      | _ => .nothing }
  settings := { threads := 2, queueCapacity := 1 }

/-- An archive with three classes, an older archive of sources, and no directory for the
    lines. -/
def packagedDesk : Desk where
  files := { nodes := .ofList [
    (["in.jar"], .file (.archive [⟨"p/B.class", [2]⟩, ⟨"p/A.class", [1]⟩, ⟨"Top.class", [0]⟩])),
    (["s.jar"], .file (.archive []))] }

def packagedJob : Job where
  input := ⟨"in.jar"⟩
  sources := ⟨"s.jar"⟩
  lineTable := some ⟨"out/lines.txt"⟩

/-- Two workers at once, the later class first. -/
def crossed : List Event :=
  [.take 1, .take 2, .finish 2, .openWriter, .record 2, .queue 2, .send 2, .finish 1, .record 1,
    .take 0, .write, .queue 1, .join 2, .send 1, .finish 0, .join 0, .join 1, .write, .closeWriter]

/-- The pool after these events. -/
def crossing (plan : Plan) : Pool := ((Pool.initial plan).follow plan crossed).getD (Pool.initial plan)

/-- The members of the archive, and the classes among them. -/
def packagedMembers : List Archive.Member :=
  [⟨"p/B.class", 1, .ok [2]⟩, ⟨"p/A.class", 1, .ok [1]⟩, ⟨"Top.class", 1, .ok [0]⟩]

def packagedClasses : SortedMap String Bytes :=
  .ofList [("Top.class", [0]), ("p/A.class", [1]), ("p/B.class", [2])]

/-- What decompilers are asked about these classes, if they are told no more. -/
def packagedCalls : List (ClassContext × Bytes) :=
  [(⟨"Top.class", "Top", 0, packaged.settings.options, []⟩, [0]),
    (⟨"p/A.class", "p/A", 1, packaged.settings.options, []⟩, [1]),
    (⟨"p/B.class", "p/B", 2, packaged.settings.options, []⟩, [2])]

theorem packaged_reads : packagedJob.Reads packagedDesk.files packagedMembers where
  archive := ⟨.archive [⟨"p/B.class", [2]⟩, ⟨"p/A.class", [1]⟩, ⟨"Top.class", [0]⟩],
    by decide +kernel, rfl⟩
  classes := ⟨[("p/B.class", [2]), ("p/A.class", [1]), ("Top.class", [0])], by decide +kernel⟩

theorem packaged_makesCalls {d : Decompiler}
    (h : d.contexts packagedJob packagedClasses = packagedCalls) :
    d.MakesCalls packagedJob packagedMembers packagedCalls := by
  obtain ⟨classes, hclasses, hentries⟩ := packaged_reads.classesOf
  have hsame : classesOf packagedJob.input (packagedDesk.files.readContent packagedJob.input)
      = .ok packagedClasses := by decide +kernel
  obtain rfl := Except.ok.inj (hclasses.symm.trans hsame)
  exact h ▸ makesCalls_contexts hentries

theorem packaged_answers (context : ClassContext) (octets : Bytes) :
    (∃ source, packaged.backend.run context octets = .source source)
      ∨ packaged.backend.run context octets = .nothing := by
  simp only [packaged]
  split
  · exact .inl ⟨_, rfl⟩
  · exact .inl ⟨_, rfl⟩
  · exact .inr rfl

/-- The same decompiler with a queue for one source more than any channel can hold. -/
def crowded : Decompiler :=
  { packaged with settings := { packaged.settings with queueCapacity := 2 ^ 61 } }

end Decompiler

end Nomenclator.Decompile
