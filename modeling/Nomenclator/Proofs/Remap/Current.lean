import Nomenclator.Proofs.Remap.Reuse

/-! # Current outputs — jobs that are run again

    The output of a target that was made is current: it is there, and its sidecar is
    loaded and names the build (`Traced.reusable`).  A target whose output is current
    is taken again, and nothing changes but the log and the cache
    (`run_traceTarget_of_reusable`).  So a job for one target takes its output again
    whenever it finds the tree and the input as it has left them (`run_again`). -/

namespace Nomenclator.Remap

open Files Act

/-- No output is where its own sidecar stands or is written first. -/
theorem OffSidecar.self {p : Path} (h : p.NamesFile) : OffSidecar p p := by
  obtain ⟨dir, name, hplace, hsidecar, htemporary⟩ := Sidecar.places h
  have hlonger : ∀ suffix : String, 0 < suffix.length →
      dir ++ [.ofText name] ≠ dir ++ [.ofText (name ++ suffix)] := by
    intro suffix hsuffix heq
    have hname := congrArg String.length (Name.concat_ofText_inj heq).2
    rw [String.length_append] at hname
    omega
  refine ⟨?_, ?_⟩
  · rw [hplace, hsidecar]
    exact hlonger _ (by decide)
  · rw [hplace, htemporary]
    exact hlonger _ (by decide)

/-- A sidecar that is loaded is loaded without a warning. -/
theorem Sidecar.load_eq {t : FileTree} {output : Path} {s : Sidecar}
    (h : (load t output).1 = some s) : load t output = (some s, []) := by
  rw [load] at h ⊢
  cases hread : t.readBytes (pathOf output) with
  | error f => rw [hread] at h; cases h
  | ok bytes =>
      rw [hread] at h
      dsimp only at h ⊢
      cases hparse : parse? bytes with
      | none => rw [hparse] at h; cases h
      | some found =>
          rw [hparse] at h
          cases h
          rfl

/-- From the names of the input to those of a target. -/
def Job.directionTo (job : Job) (label : String) : Direction :=
  { source := job.source, dest := label }

namespace Remapper

/-- How the output of a target is made from an input with the given digest. -/
def build (r : Remapper) (catalog : Naming.Catalog) (job : Job) (inputDigest label : String) :
    Sidecar :=
  { tool := r.tool.name
    inputDigest
    layers := r.fingerprints catalog job label
    flags := r.settings.flags }

theorem sidecar_eq_build {r : Remapper} {catalog : Naming.Catalog} {job : Job} {label : String}
    {layers : List Layer} (inputDigest : String)
    (h : layers.map Layer.fingerprint = r.fingerprints catalog job label) :
    r.sidecar inputDigest layers = r.build catalog job inputDigest label := by
  rw [sidecar, build, h]

/-- An output stays current where it stays a file and its sidecar stays what it is. -/
theorem Reusable.kept {t u : FileTree} {output : Path} {expected : Sidecar}
    (h : Reusable t output expected) (hfile : t.isFile output = true → u.isFile output = true)
    (hsidecar : ∀ record, t.stat (Sidecar.pathOf output) = .ok (.file record) →
      u.stat (Sidecar.pathOf output) = .ok (.file record)) : Reusable u output expected := by
  obtain ⟨hthere, s, hload, hsame⟩ := h
  refine ⟨hfile hthere, s, ?_, hsame⟩
  rw [Sidecar.load] at hload ⊢
  cases hread : t.readBytes (Sidecar.pathOf output) with
  | error fault =>
      rw [hread] at hload
      cases hload
  | ok bytes =>
      rw [hread] at hload
      obtain ⟨record, hrecord, rfl⟩ := FileTree.readBytes_eq_ok hread
      have hread' : u.readBytes (Sidecar.pathOf output) = .ok record.bytes := by
        rw [FileTree.readBytes, FileTree.readContent_of_stat (hsidecar record hrecord)]
        rfl
      rw [hread']
      exact hload

-- ── Made outputs are current ─────────────────────────────────────────────────

variable {r : Remapper} {catalog : Naming.Catalog} {job : Job} {target : Target}
  {classpath : List Path} {inputDigest : String} {b b' c : Bench Request}

theorem Traced.reusable (htool : r.tool.WritesOnlyOutput) (hplain : b.files.Plain)
    {layers : List Layer} {made : Outcome × Option Call}
    (h : r.Traced job classpath inputDigest target layers b made b') :
    Reusable b'.files target.output (r.sidecar inputDigest layers) := by
  obtain ⟨outcome, call?⟩ := made
  cases call? with
  | none =>
      obtain ⟨-, hrests, hreusable⟩ := h
      rw [hrests.files]
      exact hreusable
  | some call =>
      obtain ⟨htool', houtput, hprepared, hfile, hfiles, -⟩ := Traced.answered htool hplain h
      obtain ⟨-, -, -, -, -, -, hok, -⟩ := h
      rw [← houtput] at hok ⊢
      have hsaved := Call.saved htool' hprepared.plain hfile
        (stamped (r.sidecar inputDigest layers) b)
      have hleft := Call.keeping htool' hprepared.plain
      obtain ⟨content, hstat⟩ := FileTree.stat_of_isFile hfile
      obtain ⟨hleads, hat⟩ := hleft.plain.stat_file hstat
      have hoff := OffSidecar.self (FileTree.namesFile_of_stat hstat)
      rw [← hsaved.elsewhere _ hoff.temporary hoff.sidecar] at hat
      rw [hfiles]
      refine ⟨?_, stamped (r.sidecar inputDigest layers) b, ?_, ?_⟩
      · exact FileTree.isFile_of_resolve
          (hleft.plain.resolve_keeps hsaved.keeping.plain hsaved.keeping.dirs hleads) hat
      · rw [hsaved.load hok]
      · simp only [Sidecar.sameBuild, stamped, beq_self_eq_true, Bool.and_self]

/-- After a job for one target that succeeded, its output is current. -/
theorem reusable_of_run (htool : r.tool.WritesOnlyOutput) (hplain : b.files.Plain)
    (hfaithful : b.cache.Faithful) (htargets : job.targets = [target]) {bytes : Bytes}
    (hbytes : b.files.readBytes job.input = .ok bytes) {outcomes : List Outcome}
    (hrun : (r.run catalog job).run.run b = (.ok outcomes, b')) :
    Reusable b'.files target.output
      (r.build catalog job (Digest.fingerprint bytes) target.label) := by
  obtain ⟨-, made, htrace, -⟩ := run_eq_ok hrun
  obtain ⟨found, b₀, hsetUp, hmakes⟩ := run_bind_eq_ok htrace
  obtain ⟨hb₀, bytes', hbytes', hdigest⟩ := (ends_setUp job b).of_run_ok hsetUp
  obtain rfl := Except.ok.inj (hbytes.symm.trans hbytes')
  rw [hb₀, htargets] at hmakes
  obtain ⟨first, b₁, hfirst, hrest⟩ := run_bind_eq_ok hmakes
  obtain ⟨-, layers, htraced, hdrawn⟩ :=
    (ends_traceTarget r catalog job found.1 found.2 target b).of_run_ok hfirst
  cases hrest
  have hreusable := Traced.reusable htool hplain htraced
  rwa [sidecar_eq_build _ (hdrawn.prints hfaithful), hdigest] at hreusable

-- ── Current outputs are taken again ──────────────────────────────────────────

/-- Resolving succeeds if the table can be read off the catalog. -/
theorem exists_resolve_eq_ok (cache : Naming.Cache) {direction : Direction}
    {table : Naming.RenameTable}
    (h : Naming.RenameTable.ofCatalog catalog direction = .ok table) :
    ∃ shared, (cache.resolve catalog direction).1 = .ok shared := by
  rw [Naming.Cache.resolve, Naming.Cache.getOrInsert]
  cases cache.find? (cache.keyFor catalog.fingerprint direction) with
  | some known => exact ⟨known, rfl⟩
  | none =>
      rw [Naming.Cache.readOff, h]
      exact ⟨_, rfl⟩

/-- The bench after a table has been looked for. -/
def afterTable (catalog : Naming.Catalog) (direction : Direction) (b : Bench Request) :
    Bench Request :=
  let resolved := b.cache.resolve catalog direction
  { b with cache := resolved.2.1, log := b.log ++ resolved.2.2 }

theorem run_resolveTable {direction : Direction} {shared : Naming.Shared}
    (h : (b.cache.resolve catalog direction).1 = .ok shared) :
    (resolveTable catalog direction).run.run b
      = (.ok shared.table, afterTable catalog direction b) := by
  rw [resolveTable, run_get_bind, afterTable]
  generalize b.cache.resolve catalog direction = resolved at h
  obtain ⟨result, cache, log⟩ := resolved
  cases h
  rfl

theorem run_isCurrent {output : Path} {expected : Sidecar}
    (h : Reusable b.files output expected) :
    (isCurrent output expected).run.run b = (.ok true, b) := by
  obtain ⟨hfile, s, hload, hsame⟩ := h
  rw [isCurrent, run_get_bind]
  dsimp only
  rw [if_pos hfile, Sidecar.load_eq hload]
  dsimp only
  rw [reportAll, run_modify_bind, List.append_nil, hsame]
  rfl

/-- **A target whose output is current is taken again.** -/
theorem run_traceTarget_of_resolve {shared : Naming.Shared}
    (hresolve : (b.cache.resolve catalog (job.directionTo target.label)).1 = .ok shared)
    (hreusable : Reusable b.files target.output (r.sidecar inputDigest
      (Layer.make "primary" shared.table catalog.fingerprint :: r.layers))) :
    (r.traceTarget catalog job classpath inputDigest target).run.run b
      = (.ok ({ label := target.label, output := target.output, cached := true }, none),
          afterTable catalog (job.directionTo target.label) b) := by
  have hprepare : (r.prepare catalog job classpath inputDigest false target).run.run b
      = (.ok none, afterTable catalog (job.directionTo target.label) b) := by
    have hcurrent : Reusable (afterTable catalog (job.directionTo target.label) b).files
        target.output (r.sidecar inputDigest
          (Layer.make "primary" shared.table catalog.fingerprint :: r.layers)) := hreusable
    have htable := run_resolveTable hresolve
    rw [Job.directionTo] at hcurrent htable ⊢
    rw [prepare, run_bind, htable]
    dsimp only
    rw [ite_bind, if_neg Bool.false_ne_true, run_bind, run_isCurrent hcurrent]
    rfl
  rw [traceTarget, run_bind, hprepare]
  rfl

/-- A target whose output is current is taken again, by all whose caches are faithful. -/
theorem run_traceTarget_of_reusable (hfaithful : b.cache.Faithful) {table : Naming.RenameTable}
    (htable : Naming.RenameTable.ofCatalog catalog (job.directionTo target.label) = .ok table)
    (hreusable : Reusable b.files target.output
      (r.build catalog job inputDigest target.label)) :
    (r.traceTarget catalog job classpath inputDigest target).run.run b
      = (.ok ({ label := target.label, output := target.output, cached := true }, none),
          afterTable catalog (job.directionTo target.label) b) := by
  obtain ⟨shared, hresolve⟩ := exists_resolve_eq_ok b.cache htable
  have hdirection := (b.cache.resolved_resolve catalog _).direction hfaithful shared hresolve
  have hlayers : (Layer.make "primary" shared.table catalog.fingerprint :: r.layers).map
      Layer.fingerprint = r.fingerprints catalog job target.label := by
    rw [List.map_cons, Layer.make, hdirection]
    rfl
  rw [← sidecar_eq_build inputDigest hlayers] at hreusable
  exact run_traceTarget_of_resolve hresolve hreusable

/-- Setting up a job whose input can be read comes down to its class path. -/
theorem run_setUp_iff {found : List Path} {bytes : Bytes}
    (hbytes : b.files.readBytes job.input = .ok bytes) :
    (setUp job).run.run b = (.ok (found, Digest.fingerprint bytes), b)
      ↔ (resolveClasspath job.input [] job.classpath : Act Request _).run.run b
        = (.ok found, b) := by
  obtain ⟨content, hstat, -⟩ := FileTree.readBytes_eq_ok hbytes
  have hnot : (!b.files.isFile job.input) = false := by
    rw [FileTree.isFile, hstat]
    rfl
  have hends := (ends_resolveClasspath job.input [] job.classpath b).holds
  rw [setUp, ask, bind_assoc, run_get_bind, pure_bind, hnot, if_neg Bool.false_ne_true, run_bind]
  generalize (resolveClasspath job.input [] job.classpath).run.run b = out at hends ⊢
  obtain ⟨result, b'⟩ := out
  cases result with
  | error e =>
      constructor
      · intro h
        cases (Prod.mk.inj h).1
      · intro h
        cases (Prod.mk.inj h).1
  | ok classpath =>
      obtain rfl : b' = b := hends
      dsimp only
      rw [run_get_bind, hbytes]
      constructor
      · intro h
        rw [(Prod.mk.inj (Except.ok.inj (Prod.mk.inj h).1)).1]
      · intro h
        rw [Except.ok.inj (Prod.mk.inj h).1]
        rfl

theorem run_setUp {bytes : Bytes} (hclasspath : job.classpath = [])
    (hbytes : b.files.readBytes job.input = .ok bytes) :
    (setUp job).run.run b = (.ok ([], Digest.fingerprint bytes), b) := by
  rw [run_setUp_iff hbytes, hclasspath]
  rfl

/-- A job whose first output is current takes it again, and makes the others. -/
theorem run_of_reusable {later : List Target} (htargets : job.targets = target :: later)
    (haccepted : refused? job b = none)
    (hsetUp : (setUp job).run.run b = (.ok (classpath, inputDigest), b))
    (hfaithful : b.cache.Faithful) {table : Naming.RenameTable}
    (htable : Naming.RenameTable.ofCatalog catalog (job.directionTo target.label) = .ok table)
    (hreusable : Reusable b.files target.output
      (r.build catalog job inputDigest target.label)) :
    (r.run catalog job).run.run b
      = match (r.trace catalog job classpath inputDigest later).run.run
          (afterTable catalog (job.directionTo target.label) b) with
        | (.ok made, b') => (.ok ({ label := target.label, output := target.output, cached := true }
            :: made.map Prod.fst), b')
        | (.error e, b') => (.error e, ((cleanUp job e).run.run b').2) := by
  rw [run_of_accepted r catalog haccepted, traceJob, run_bind, hsetUp, htargets]
  dsimp only
  rw [trace, run_bind, run_traceTarget_of_reusable hfaithful htable hreusable]
  dsimp only
  rw [run_bind]
  rcases (r.trace catalog job classpath inputDigest later).run.run
    (afterTable catalog (job.directionTo target.label) b) with ⟨result, b'⟩
  cases result with
  | ok made => rfl
  | error e => rfl

/-- **A job that is run again takes its output again**, if the tree is as the job has left it,
    and the input has not changed. -/
theorem run_again (htool : r.tool.WritesOnlyOutput) (hplain : b.files.Plain)
    (hfaithful : b.cache.Faithful) (htargets : job.targets = [target])
    (hclasspath : job.classpath = []) {table : Naming.RenameTable}
    (htable : Naming.RenameTable.ofCatalog catalog (job.directionTo target.label) = .ok table)
    {bytes : Bytes} (hbytes : b.files.readBytes job.input = .ok bytes) {outcomes : List Outcome}
    (hrun : (r.run catalog job).run.run b = (.ok outcomes, b')) (hfiles : c.files = b'.files)
    (hfaithful' : c.cache.Faithful) (hbytes' : c.files.readBytes job.input = .ok bytes)
    (haccepted : refused? job c = none) :
    (r.run catalog job).run.run c
      = (.ok [{ label := target.label, output := target.output, cached := true }],
          afterTable catalog (job.directionTo target.label) c) := by
  have hreusable := reusable_of_run htool hplain hfaithful htargets hbytes hrun
  rw [← hfiles] at hreusable
  rw [run_of_reusable htargets haccepted (run_setUp hclasspath hbytes') hfaithful' htable hreusable]
  rfl

end Remapper

end Nomenclator.Remap
