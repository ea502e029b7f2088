import Nomenclator.Proofs.Files.Emptying
import Nomenclator.Proofs.Remap.ClassPath
import Nomenclator.Proofs.Remap.Pairs
import Nomenclator.Proofs.Remap.SourceResult

/-! # Failed runs on sources — what is cleaned up

    A run that fails after its table has been resolved discards its output and drops the
    tables that are kept.

    * **Steps** — until then, no step brings a link into the tree or changes the cache
      (`preserves_produce`, by one rule for each kind of step);
    * **Discarding** — an output that has been discarded is gone, unless its path does not
      end in a name: then it may be left as an empty directory (`gone_discarded`);
    * **Runs** — `remap_invalidates_iff`.  The table is resolved outside of what is cleaned
      up, so a table that cannot be resolved leaves the older output and the tables. -/

namespace Nomenclator.Remap

open Files (Path FileTree IoFault Content Location Node)

/-- Is the error that of a call that is refused before anything is tried? -/
def Error.isRefusal : Error → Bool
  | .missingInput _ => true
  | .outputIsInput _ => true
  | .settings (.differentShapes _ _) => true
  | _ => false

namespace Act

variable {ρ α β : Type}

-- ── Steps ────────────────────────────────────────────────────────────────────

/-- What holds of a bench holds after the step, whether it succeeds or fails. -/
def Preserves (P : Bench ρ → Prop) (act : Act ρ α) : Prop := ∀ b, P b → P (act.run.run b).2

section Rules

variable {P : Bench ρ → Prop}

theorem Preserves.bind {x : Act ρ α} {f : α → Act ρ β} (hx : Preserves P x)
    (hf : ∀ a, Preserves P (f a)) : Preserves P (x >>= f) := by
  intro b hb
  rw [run_bind]
  have hmid := hx b hb
  generalize x.run.run b = out at hmid ⊢
  obtain ⟨result, b'⟩ := out
  cases result with
  | ok a => exact hf a b' hmid
  | error e => exact hmid

theorem preserves_pure (a : α) : Preserves P (pure a : Act ρ α) := fun _ hb => hb

theorem preserves_throw (e : Error) : Preserves P (throw e : Act ρ α) := fun _ hb => hb

theorem preserves_throw_bind (e : Error) {f : α → Act ρ β} :
    Preserves P ((throw e : Act ρ α) >>= f) := fun _ hb => hb

theorem preserves_get_bind {f : Bench ρ → Act ρ β} (h : ∀ b, P b → Preserves P (f b)) :
    Preserves P (get >>= f) := fun b hb => h b hb b hb

theorem preserves_ask (question : FileTree → α) : Preserves P (ask question : Act ρ α) :=
  fun _ hb => hb

theorem preserves_resolveClasspath (input : Path) (entries : List Path) :
    Preserves P (resolveClasspath input [] entries) := by
  intro b hb
  rw [run_resolveClasspath]
  exact hb

/-- A step that preserves a property ends with it in both cases. -/
theorem Preserves.ends {act : Act ρ α} (h : Preserves P act) {b : Bench ρ} (hb : P b) :
    Ends act b (fun _ b' => P b') (fun _ b' => P b') := by
  refine ⟨?_⟩
  have hend := h b hb
  generalize act.run.run b = out at hend ⊢
  obtain ⟨result, b'⟩ := out
  cases result with
  | ok a => exact hend
  | error e => exact hend

end Rules

/-- The tree has no links, and the cache is as it was. -/
structure Steady (cache : Naming.Cache) (b : Bench ρ) : Prop where
  plain : b.files.Plain
  cache_eq : b.cache = cache

variable {cache : Naming.Cache}

theorem preserves_change {path : Path} {operation : FileTree → Except IoFault FileTree}
    (h : ∀ t t', t.Plain → operation t = .ok t' → t'.Plain) :
    Preserves (Steady cache) (change path operation : Act ρ Unit) := by
  rw [change]
  refine preserves_get_bind fun b hb => ?_
  cases hop : operation b.files with
  | ok t => exact fun _ hb' => ⟨h _ _ hb.plain hop, hb'.cache_eq⟩
  | error fault => exact preserves_throw _

theorem preserves_write {path : Path} {content : Content} :
    Preserves (Steady cache) (change path (·.write path content) : Act ρ Unit) :=
  preserves_change fun _ _ ht hwrite => (ht.write hwrite).1.plain

theorem preserves_createParent (path : Path) :
    Preserves (Steady cache) (createParent path : Act ρ Unit) := by
  rw [createParent]
  cases path.parent? with
  | none => exact preserves_pure _
  | some parent =>
      refine preserves_get_bind fun b hb => ?_
      have hplain := (hb.plain.createDirAll parent).plain
      dsimp only
      generalize b.files.createDirAll parent = out at hplain ⊢
      obtain ⟨result, t⟩ := out
      refine Preserves.bind (fun _ hb' => ⟨hplain, hb'.cache_eq⟩) fun _ => ?_
      cases result with
      | ok _ => exact preserves_pure _
      | error fault => exact preserves_throw _

-- ── Discarding ───────────────────────────────────────────────────────────────

/-- The path does not end in a name, and leads to an empty directory. -/
structure LeftEmpty (t : FileTree) (p : Path) : Prop where
  unnamed : p.endsInName = false
  dir : t.stat p = .ok .dir
  empty : t.hasChildren p.place = false

/-- **What has been discarded is gone**, or left as an empty directory. -/
theorem gone_discarded {t : FileTree} (h : t.Plain) (output : Path) :
    (discarded t output).Plain
      ∧ ((discarded t output).pathExists output = false
        ∨ LeftEmpty (discarded t output) output) := by
  rw [discarded]
  by_cases hdir : t.isDir output = true
  · rw [if_pos hdir]
    obtain ⟨hplain, hgone | ⟨hname, hstat, hempty⟩⟩ :=
      h.removeDirAll_gone (FileTree.stat_of_isDir hdir)
    · exact ⟨hplain, .inl hgone⟩
    · exact ⟨hplain, .inr ⟨hname, hstat, hempty⟩⟩
  · rw [if_neg hdir]
    refine ⟨(discarding_plain h output).1.plain, .inl ?_⟩
    -- what is there is no directory before, and no file afterwards
    cases hexists : (discarding t output).pathExists output with
    | false => exact hexists
    | true =>
        obtain ⟨node, hstat⟩ := SourceRemapper.stat_of_pathExists hexists
        have hbefore := (sheds_discarding t output).stat hstat
        cases node with
        | dir =>
            rw [FileTree.isDir, hbefore] at hdir
            exact absurd rfl hdir
        | link target =>
            obtain ⟨loc, -, hat⟩ := FileTree.stat_eq_ok hbefore
            exact absurd hat (h.noLink loc target)
        | file content =>
            have hgone := (gone_discarding t output).1
            rw [FileTree.isFile, hstat] at hgone
            cases hgone

theorem preserves_discardTree (output : Path) :
    Preserves (Steady cache) (discardTree output : Act ρ Unit) := by
  intro b hb
  obtain ⟨log, hrun⟩ := run_discardTree output b
  rw [hrun]
  exact ⟨(gone_discarded hb.plain output).1, hb.cache_eq⟩

end Act

namespace SourceRemapper

open Act

variable {cache : Naming.Cache}

-- ── Making the output ────────────────────────────────────────────────────────

theorem preserves_readFiles {P : Bench SourceRequest → Prop} (input : Path) (isDirectory : Bool) :
    Preserves P (if isDirectory then readDirectory input else readArchive input) := by
  cases isDirectory with
  | true =>
      refine preserves_get_bind fun b _ => ?_
      cases b.files.filesBelow input with
      | error fault => exact preserves_throw _
      | ok files => exact preserves_pure _
  | false =>
      refine preserves_get_bind fun b _ => ?_
      cases b.files.readContent input with
      | error fault => exact preserves_throw _
      | ok content =>
          dsimp only
          cases content.members? with
          | none => exact preserves_throw _
          | some members =>
              dsimp only
              cases Archive.select (fun _ => true) members with
              | error fault => cases fault <;> exact preserves_throw _
              | ok files => exact preserves_pure _

theorem preserves_writeDirectory (root : Path) (files : List (String × Content)) :
    Preserves (Steady cache) (writeDirectory root files) := by
  induction files with
  | nil => exact preserves_pure _
  | cons file later ih =>
      rw [writeDirectory]
      exact (preserves_createParent _).bind fun _ => preserves_write.bind fun _ => ih

theorem preserves_writeArchive (path : Path) (files : List (String × Content)) :
    Preserves (Steady cache) (writeArchive path files) := by
  rw [writeArchive]
  refine preserves_write.bind fun _ => ?_
  split
  · exact preserves_write
  · exact preserves_throw _

/-- **Making the output** brings no link into the tree and leaves the cache alone, also where it
    fails. -/
theorem preserves_produce (r : SourceRemapper) (table : Naming.RenameTable) (input output : Path)
    (classpath : List Path) :
    Preserves (Steady cache) (r.produce table input output classpath) := by
  rw [produce]
  refine (preserves_resolveClasspath input classpath).bind fun classpath => ?_
  refine (preserves_ask _).bind fun isDirectory => ?_
  dsimp only
  rw [ite_bind]
  refine (preserves_readFiles input isDirectory).bind fun files => ?_
  cases sortOut files with
  | error e => exact preserves_throw_bind e
  | ok parts =>
      obtain ⟨units, others⟩ := parts
      dsimp only
      rw [pure_bind]
      refine Preserves.bind (fun _ hb => ⟨hb.plain, hb.cache_eq⟩) fun _ => ?_
      dsimp only
      cases r.tool.run { table, classpath, files := units } with
      | error chain => exact preserves_throw_bind _
      | ok answers =>
          dsimp only
          rw [pure_bind]
          cases matchAnswers units answers with
          | error fault => exact preserves_throw_bind _
          | ok sources =>
              dsimp only
              rw [pure_bind]
              refine (preserves_discardTree output).bind fun _ => ?_
              refine (preserves_createParent output).bind fun _ => ?_
              refine (preserves_ask _).bind fun isDirectory => ?_
              rw [ite_bind]
              refine Preserves.bind ?_ fun _ => preserves_pure _
              split
              · exact preserves_writeDirectory output _
              · exact preserves_writeArchive output _

-- ── Runs ─────────────────────────────────────────────────────────────────────

/-- A failed run has discarded its output and dropped the tables, in a new generation. -/
structure CleansUp (b b' : Bench SourceRequest) (output : Path) : Prop where
  output : b'.files.pathExists output = false ∨ LeftEmpty b'.files output
  dropped : b'.cache.entries = []
  generation : b'.cache.generation = (b.cache.generation + 1) % Naming.Cache.counterSize

theorem ends_runJob_failure (r : SourceRemapper) (table : Naming.RenameTable) (input output : Path)
    (classpath : List Path) {b : Bench SourceRequest} (hplain : b.files.Plain) :
    Ends (r.runJob table input output classpath) b (fun _ _ => True)
      (fun _ b' => CleansUp b b' output) := by
  rw [runJob]
  dsimp only
  refine Ends.bind (Q := fun _ => Steady b.cache) ⟨⟨hplain, rfl⟩⟩ fun _ b₁ hb₁ => ?_
  refine (((preserves_produce r table input output classpath).ends hb₁).mono (fun _ _ _ => trivial)
    fun _ _ h => h).orElseDo fun e b₂ hb₂ => ?_
  refine Ends.bind (Q := fun _ => Steady b.cache) ⟨⟨hb₂.plain, hb₂.cache_eq⟩⟩ fun _ b₃ hb₃ => ?_
  obtain ⟨log, hrun⟩ := run_discardTree output b₃
  refine ends_bind_run hrun ?_
  exact ⟨⟨(gone_discarded hb₃.plain output).2, rfl, by rw [← hb₃.cache_eq]⟩⟩

theorem ends_remapWith_failure (r : SourceRemapper) (table : Naming.RenameTable)
    (input output : Path) (classpath : List Path) {b : Bench SourceRequest}
    (hplain : b.files.Plain) (hother : b.files.samePlace input output = false) :
    Ends (r.remapWith table input output classpath) b (fun _ _ => True)
      (fun e b' => e.isRefusal = false → CleansUp b b' output) := by
  refine ends_get_bind ?_
  dsimp only
  by_cases hmissing : (!b.files.pathExists input) = true
  · rw [if_pos hmissing]
    exact ends_throw fun h => nomatch h
  rw [if_neg hmissing]
  by_cases hshape :
      (b.files.pathExists output && b.files.isDir output != b.files.isDir input) = true
  · rw [if_pos hshape]
    exact ends_throw fun h => nomatch h
  rw [if_neg hshape, hother, if_pos (by decide)]
  exact (ends_runJob_failure r table input output classpath hplain).mono (fun _ _ h => h)
    fun _ _ h _ => h

/-- The table of the catalog for the direction is kept, or can be read off. -/
def Resolves (b : Bench SourceRequest) (catalog : Naming.Catalog) (direction : Direction) : Prop :=
  ∃ shared, (b.cache.resolve catalog direction).1 = .ok shared

/-- A table that cannot be resolved ends the call before anything has changed. -/
theorem ends_remap_failure (r : SourceRemapper) (catalog : Naming.Catalog) (direction : Direction)
    (input output : Path) (classpath : List Path) {b : Bench SourceRequest}
    (hplain : b.files.Plain) (hother : b.files.samePlace input output = false) :
    Ends (r.remap catalog direction input output classpath) b (fun _ _ => True)
      (fun e b' => (Resolves b catalog direction ∧ (e.isRefusal = false → CleansUp b b' output))
        ∨ (¬ Resolves b catalog direction ∧ (∃ fault, e = .naming fault)
          ∧ b'.files = b.files ∧ b'.cache = b.cache)) := by
  have hstep : Naming.Cache.Step b.cache (.resolve catalog direction)
      (some (b.cache.resolve catalog direction).1) (b.cache.resolve catalog direction).2.1 :=
    Naming.Cache.step_perform b.cache (.resolve catalog direction)
  have hgrows := (b.cache.resolved_resolve catalog direction).grows
  rw [remap, resolveTable, bind_assoc]
  refine ends_get_bind ?_
  rw [Resolves]
  generalize b.cache.resolve catalog direction = resolved at hstep hgrows
  obtain ⟨result, cache, log⟩ := resolved
  dsimp only
  rw [bind_assoc]
  refine ends_modify_bind ?_
  cases result with
  | error fault =>
      refine ends_throw (.inr ⟨?_, ⟨fault, rfl⟩, rfl, ?_⟩)
      · rintro ⟨shared, hshared⟩
        cases hshared
      · generalize hout : some (Except.error fault) = out at hstep
        cases hstep with
        | failed => rfl
        | hit => cases hout
        | stored => cases hout
  | ok shared =>
      have hfailure := r.ends_remapWith_failure shared.table input output classpath
        (b := { b with cache, log := b.log ++ log }) hplain hother
      dsimp only
      rw [pure_bind]
      refine hfailure.mono (fun _ _ h => h) fun e b' h => .inl ⟨⟨shared, rfl⟩, fun hrefusal => ?_⟩
      obtain ⟨hout, hdropped, hgeneration⟩ := h hrefusal
      exact ⟨hout, hdropped, by rw [hgeneration, hgrows.generation]⟩

/-- Nothing is at the output, no table is kept, and the generation is a later one. -/
structure Invalidates (b b' : Bench SourceRequest) (output : Path) : Prop where
  gone : b'.files.pathExists output = false
  dropped : b'.cache.entries = []
  later : b.cache.generation < b'.cache.generation

/-- A directory of sources with an older output, and a table that is kept. -/
def withTable : Bench SourceRequest :=
  { benchOf sourceTree with cache := (({} : Naming.Cache).resolve twoLabels ⟨"a", "b"⟩).2.1 }

/-- A run on the directory whose tool refuses. -/
def runRefused (dest output : String) : Except Error SourceOutcome × Bench SourceRequest :=
  ((refusing "-dev").remap twoLabels ⟨"a", dest⟩ ⟨"in"⟩ ⟨output⟩ []).run.run withTable

/-- The error with which a run has ended. -/
def failure? : Except Error SourceOutcome → Option Error
  | .ok _ => none
  | .error e => some e

end SourceRemapper

end Nomenclator.Remap
