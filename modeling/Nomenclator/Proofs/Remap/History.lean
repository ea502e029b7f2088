import Nomenclator.Proofs.Remap.Current
import Nomenclator.Proofs.Remap.InputKept

/-! # Histories — what stands behind an output that is taken again

    Many jobs work on one file tree, with remappers, catalogs and caches of their own.
    In between, outputs are invalidated, and others change the tree: they leave the
    outputs and sidecars alone or delete them.

    By induction over the history, every pair of an output and its sidecar comes from
    a call of a tool in a job that succeeded, and nothing has voided it since
    (`origin_of_paired`): a step of the history that leaves the pair was not one that
    discards it, or it has just made it (`step_paired`).  What the sidecar says is what
    was written with the output, so an output that is taken again was made in the way
    that is asked for (`World.reuse_sound`). -/

namespace Nomenclator.Remap

open Files

-- ── Events ───────────────────────────────────────────────────────────────────

/-- A job that is run: by whom, which decides on the cache, at which time, and with what. -/
structure Run where
  owner : Nat
  now : UInt64
  remapper : Remapper
  catalog : Naming.Catalog
  job : Job

/-- Something that happens to a file tree. -/
inductive Event where
  | job (run : Run)
  | invalidate (owner : Nat) (outputs : List Path)
  | outside (files : FileTree)

/-- A file tree, and the caches of all who work on it. -/
structure World where
  files : FileTree
  caches : Nat → Naming.Cache := fun _ => {}

namespace World

/-- A tree on which nobody has worked yet. -/
def ofFiles (files : FileTree) : World := { files }

theorem files_ofFiles (files : FileTree) : (ofFiles files).files = files := rfl

/-- The bench on which somebody works. -/
def bench (w : World) (owner : Nat) (now : UInt64) : Bench Request :=
  { files := w.files, cache := w.caches owner, now }

/-- The world when somebody has worked on a bench. -/
def keep (w : World) (owner : Nat) (b : Bench Request) : World :=
  { files := b.files
    caches := fun other => if other = owner then b.cache else w.caches other }

/-- Runs a job. -/
def perform (w : World) (run : Run) : Except Error (List Outcome) × Bench Request :=
  (run.remapper.run run.catalog run.job).run.run (w.bench run.owner run.now)

/-- The calls of the tool that a job makes, if it succeeds. -/
def calls (w : World) (run : Run) : List Call :=
  run.remapper.calls run.catalog run.job (w.bench run.owner run.now)

/-- The world after an event. -/
def step (w : World) : Event → World
  | .job run => w.keep run.owner (w.perform run).2
  | .invalidate owner outputs =>
    w.keep owner ((Remapper.invalidate outputs).run.run (w.bench owner 0)).2
  | .outside files => { w with files }

/-- The world after events in order. -/
def after (w : World) (events : List Event) : World := events.foldl step w

end World

/-- The event makes the output at a location void: a job fails after it has begun, and one of
    its targets leads there when it ends, or an invalidation names it by a path that leads
    there and has room for the suffix of the sidecar. -/
def Event.Voids (w : World) (loc : Location) : Event → Prop
  | .job run => ∃ e, (w.perform run).1 = .error e ∧ e.refusesOutput = false
    ∧ ∃ target ∈ run.job.targets,
      (w.perform run).2.files.resolve .target target.output = .ok loc
  | .invalidate _ outputs => ∃ p ∈ outputs, FileTree.checkText (Sidecar.pathOf p) = .ok ()
    ∧ w.files.resolve .target p = .ok loc
  | .outside _ => False

/-- No event voids the output at a location. -/
def World.Undisturbed (loc : Location) : World → List Event → Prop
  | _, [] => True
  | w, e :: later => ¬ e.Voids w loc ∧ (w.step e).Undisturbed loc later

-- ── Lawful histories ─────────────────────────────────────────────────────────

/-- What an event may do, where these are the outputs of all jobs: tools write only their
    outputs, and others bring no file to the place of an output or of a sidecar, and no
    links. -/
def Event.Lawful (outputs : Path → Prop) (w : World) : Event → Prop
  | .job run => run.remapper.tool.WritesOnlyOutput ∧ ∀ target ∈ run.job.targets, outputs target.output
  | .invalidate _ _ => True
  | .outside files => files.Plain ∧ ∀ p, outputs p →
    ∀ loc, loc = p.place ∨ loc = (Sidecar.pathOf p).place →
      ∀ content, files.at? loc = some (.file content) → w.files.at? loc = some (.file content)

/-- All events are lawful, each in the world that it finds. -/
def World.Lawful (outputs : Path → Prop) : World → List Event → Prop
  | _, [] => True
  | w, e :: later => e.Lawful outputs w ∧ (w.step e).Lawful outputs later

/-- What a history starts with: a tree without links and without sidecars of the outputs, none
    of which is where a sidecar of another stands or is written first. -/
structure Fresh (outputs : Path → Prop) (start : FileTree) : Prop where
  plain : start.Plain
  noSidecar : ∀ p, outputs p → ∀ record, start.at? (Sidecar.pathOf p).place ≠ some (.file record)
  off : ∀ p q, outputs p → outputs q → OffSidecar p q

/-- The tree has no links, and the caches are faithful. -/
structure World.Sound (w : World) : Prop where
  plain : w.files.Plain
  faithful : ∀ owner, (w.caches owner).Faithful

theorem World.Sound.keep {w : World} (h : w.Sound) (owner : Nat) {b : Bench Request}
    (hplain : b.files.Plain) (hfaithful : b.cache.Faithful) : (w.keep owner b).Sound := by
  refine ⟨hplain, fun other => ?_⟩
  rw [World.keep]
  by_cases heq : other = owner
  · simpa only [if_pos heq] using hfaithful
  · simpa only [if_neg heq] using h.faithful other

theorem World.sound_ofFiles {start : FileTree} (h : start.Plain) : (ofFiles start).Sound :=
  ⟨h, fun _ _ hmem => nomatch hmem⟩

theorem Sidecar.keeping_discard_all {t : FileTree} (h : t.Plain) (outputs : List Path) :
    t.Keeping (outputs.foldl discard t) := by
  induction outputs generalizing t with
  | nil => exact h.keeping
  | cons p later ih =>
      have hfirst := (discard_plain h p).1
      exact hfirst.trans (ih hfirst.plain)

theorem World.step_sound {outputs : Path → Prop} {w : World} (h : w.Sound) {e : Event}
    (he : e.Lawful outputs w) : (w.step e).Sound := by
  cases e with
  | job run =>
      have hplain : (w.bench run.owner run.now).files.Plain := h.plain
      obtain ⟨hkeeping, hfaithful, -⟩ :=
        Remapper.run_paired run.catalog he.1 hplain (h.faithful run.owner) rfl
      exact h.keep run.owner hkeeping.plain hfaithful
  | invalidate owner outputs =>
      exact h.keep owner (Sidecar.keeping_discard_all h.plain outputs).plain
        (Naming.Cache.faithful_invalidate (w.caches owner))
  | outside files => exact ⟨he.1, h.faithful⟩

theorem World.after_sound {outputs : Path → Prop} {w : World} (h : w.Sound) {events : List Event}
    (hevents : w.Lawful outputs events) : (w.after events).Sound := by
  induction events generalizing w with
  | nil => exact h
  | cons e later ih => exact ih (step_sound h hevents.1) hevents.2

-- ── Origins ──────────────────────────────────────────────────────────────────

section Origins

variable {outputs : Path → Prop} (hoff : ∀ p q, outputs p → outputs q → OffSidecar p q)
  {watched : Path} (hwatched : watched.NamesFile) (houtput : outputs watched)
  {u : FileTree} {node : Option Node}
  (hlook : u.lookUp (Sidecar.pathOf watched).place = .ok node) {content record : Content}
include hoff hwatched houtput hlook

/-- **One step of a history.** A pair that is there after an event was there before, and the
    event has not voided it; or a call of the tool in the event left it. -/
theorem World.step_paired {w : World} (h : w.Sound) {e : Event} (he : e.Lawful outputs w)
    (hpaired : Paired (w.step e).files watched content record) :
    (Paired w.files watched content record ∧ ¬ e.Voids w watched.place)
      ∨ ∃ run, e = .job run ∧ ∃ bytes, w.files.readBytes run.job.input = .ok bytes
        ∧ ∃ call ∈ w.calls run,
          Built run.remapper run.job.input (Digest.fingerprint bytes) watched content record call := by
  cases e with
  | job run =>
      have hplain : (w.bench run.owner run.now).files.Plain := h.plain
      obtain ⟨-, -, hpairs⟩ :=
        Remapper.run_paired run.catalog he.1 hplain (h.faithful run.owner) rfl
      have hwatchable : Remapper.Watchable watched run.job.targets :=
        ⟨hwatched, fun target htarget => ⟨hoff _ _ houtput (he.2 target htarget),
          hoff _ _ (he.2 target htarget) houtput⟩⟩
      rcases hpairs watched hwatchable content record hpaired with ⟨hbefore, hclean⟩ | hbuilt
      · refine .inl ⟨hbefore, fun ⟨e, hfailed, hlate, target, htarget, hleads⟩ => ?_⟩
        exact hclean e hfailed hlate target htarget hleads
      · exact .inr ⟨run, rfl, hbuilt⟩
  | invalidate owner outputs =>
      obtain ⟨hbefore, hnone⟩ := Sidecar.paired_discard_all h.plain hwatched hlook hpaired
      exact .inl ⟨hbefore, fun ⟨p, hp, hcheck, hleads⟩ => hnone p hp hcheck hleads⟩
  | outside files =>
      refine .inl ⟨⟨?_, ?_⟩, fun hvoids => hvoids⟩
      · exact he.2 watched houtput _ (.inl rfl) _ hpaired.output
      · exact he.2 watched houtput _ (.inr rfl) _ hpaired.sidecar

/-- **Where a pair comes from.** A pair that is there after a history was there at its start,
    and nothing has voided it; or a call of the tool in one of the jobs left it, and nothing has
    voided it since. -/
theorem World.origin_of_paired {w : World} (h : w.Sound) {events : List Event}
    (hevents : w.Lawful outputs events)
    (hpaired : Paired (w.after events).files watched content record) :
    (Paired w.files watched content record ∧ w.Undisturbed watched.place events)
      ∨ ∃ past run since, events = past ++ .job run :: since
        ∧ (∃ bytes, (w.after past).files.readBytes run.job.input = .ok bytes
          ∧ ∃ call ∈ (w.after past).calls run,
            Built run.remapper run.job.input (Digest.fingerprint bytes) watched content record call)
        ∧ (w.after (past ++ [.job run])).Undisturbed watched.place since := by
  induction events generalizing w with
  | nil => exact .inl ⟨hpaired, trivial⟩
  | cons e later ih =>
      rcases ih (step_sound h hevents.1) hevents.2 hpaired with
        ⟨hmid, hundisturbed⟩ | ⟨past, run, since, rfl, hbuilt, hundisturbed⟩
      · rcases step_paired hoff hwatched houtput hlook h hevents.1 hmid with
          ⟨hbefore, hvoids⟩ | ⟨run, rfl, hbuilt⟩
        · exact .inl ⟨hbefore, hvoids, hundisturbed⟩
        · exact .inr ⟨[], run, later, rfl, hbuilt, hundisturbed⟩
      · exact .inr ⟨e :: past, run, since, rfl, hbuilt, hundisturbed⟩

end Origins

theorem World.lawful_append {outputs : Path → Prop} {w : World} {events later : List Event} :
    w.Lawful outputs (events ++ later)
      ↔ w.Lawful outputs events ∧ (w.after events).Lawful outputs later := by
  induction events generalizing w with
  | nil => exact (and_iff_right trivial).symm
  | cons e events ih =>
      rw [List.cons_append, Lawful, ih, Lawful, and_assoc]
      rfl

-- ── Repeated runs ────────────────────────────────────────────────────────────

/-- After a run that succeeds, the output of its one target is current. -/
theorem World.reusable_after {w : World} (h : w.Sound) {run : Run}
    (htool : run.remapper.tool.WritesOnlyOutput) (target : Target)
    (htargets : run.job.targets = [target]) {bytes : Bytes}
    (hbytes : w.files.readBytes run.job.input = .ok bytes) (hok : (w.perform run).1.isOk = true) :
    Remapper.Reusable (w.step (.job run)).files target.output
      (run.remapper.build run.catalog run.job (Digest.fingerprint bytes) target.label) := by
  have hplain : (w.bench run.owner run.now).files.Plain := h.plain
  rcases hrun : w.perform run with ⟨result, b'⟩
  rw [hrun] at hok
  cases result with
  | error e => cases hok
  | ok outcomes =>
      rw [step, hrun]
      exact Remapper.reusable_of_run htool hplain (h.faithful run.owner) htargets hbytes hrun

/-- A run one of whose targets is its input is refused, and leaves the tree. -/
theorem World.perform_of_refused (w : World) {run : Run} {target : Target}
    (h : Remapper.refused? run.job (w.bench run.owner run.now) = some target) :
    (w.perform run).1 = .error (.outputIsInput target.output)
      ∧ (w.step (.job run)).files = w.files := by
  have hrun : w.perform run = (.error (.outputIsInput target.output), w.bench run.owner run.now) :=
    Remapper.run_of_refused run.remapper run.catalog h
  rw [step, hrun]
  exact ⟨rfl, rfl⟩

/-- A run whose first output is current takes it again, and makes the others. -/
theorem World.perform_of_reusable {w : World} (h : w.Sound) (run : Run)
    (target : Target) {later : List Target} (htargets : run.job.targets = target :: later)
    (hclasspath : run.job.classpath = []) {table : Naming.RenameTable}
    (htable : Naming.RenameTable.ofCatalog run.catalog (run.job.directionTo target.label)
      = .ok table) {bytes : Bytes} (hbytes : w.files.readBytes run.job.input = .ok bytes)
    (haccepted : Remapper.refused? run.job (w.bench run.owner run.now) = none)
    (hreusable : Remapper.Reusable w.files target.output
      (run.remapper.build run.catalog run.job (Digest.fingerprint bytes) target.label)) :
    w.perform run
      = match (run.remapper.trace run.catalog run.job [] (Digest.fingerprint bytes) later).run.run
          (Remapper.afterTable run.catalog (run.job.directionTo target.label)
            (w.bench run.owner run.now)) with
        | (.ok made, b') => (.ok ({ label := target.label, output := target.output, cached := true }
            :: made.map Prod.fst), b')
        | (.error e, b') => (.error e, ((Remapper.cleanUp run.job e).run.run b').2) :=
  Remapper.run_of_reusable htargets haccepted (Remapper.run_setUp hclasspath hbytes)
    (h.faithful run.owner) htable hreusable

-- ── Tools and runs ───────────────────────────────────────────────────────────

/-- The labels of the tables of a request, as content of a file. -/
def Request.labels (request : Request) : Content :=
  .raw (request.layers.flatMap fun layer => Text.encodeUtf8 layer.table.direction.dest.toList)

/-- A tool that writes to its output for which labels it was made. -/
def Tool.labelling : Tool where
  name := "labeller"
  run request t :=
    match t.write request.output request.labels with
    | .ok t => (.ok (), t)
    | .error fault => (.error [fault.message], t)

theorem Tool.labelling_writesFile : labelling.WritesFile :=
  writesFile_of_run Request.labels fun _ _ => rfl

theorem Tool.labelling_writesOnlyOutput : labelling.WritesOnlyOutput :=
  labelling_writesFile.writesOnlyOutput

/-- A tool that does nothing and reports success. -/
def Tool.idle : Tool where
  name := "idler"
  run _ t := (.ok (), t)

theorem Tool.idle_writesOnlyOutput : idle.WritesOnlyOutput :=
  fun _ _ h => ⟨h, fun _ hne => absurd rfl hne⟩

/-- A run of a job with a tool. -/
def Run.of (tool : Tool) (job : Job) : Run :=
  { owner := 0, now := 0, remapper := { tool, settings := {} }, catalog := twoLabels, job }

/-- A run from one input to outputs for `b`. -/
def Run.toOutputs (tool : Tool) (outputs : List String) : Run := .of tool (.toOutputs "in" outputs)

/-- The world after such a run. -/
theorem World.Sound.toOutputs {w : World} (h : w.Sound) {tool : Tool}
    (htool : tool.WritesOnlyOutput) (outputs : List String) :
    (w.step (.job (.toOutputs tool outputs))).Sound := by
  have hlawful : Event.Lawful (fun _ => True) w (.job (.toOutputs tool outputs)) :=
    ⟨htool, fun _ _ => trivial⟩
  exact step_sound h hlawful

/-- The run for one output succeeds, and leaves the input. -/
def World.Makes (w : World) (tool : Tool) (output : String) : Prop :=
  let run := Run.toOutputs tool [output]
  (w.perform run).1.isOk = true ∧ w.files.readBytes run.job.input = .ok [1]
    ∧ (w.step (.job run)).files.readBytes run.job.input = .ok [1]
    ∧ (w.step (.job run)).files.samePlace run.job.input ⟨output⟩ = false

instance (w : World) (tool : Tool) (output : String) : Decidable (w.Makes tool output) :=
  inferInstanceAs (Decidable (_ ∧ _))

/-- The run for one output takes it again. -/
def World.Reuses (w : World) (tool : Tool) (output : String) : Prop :=
  ∃ b, w.perform (.toOutputs tool [output])
    = (.ok [{ label := "b", output := ⟨output⟩, cached := true }], b)

/-- A run whose output is current takes it again. -/
theorem World.reuses_of_reusable {w : World} (h : w.Sound) {tool : Tool} {output : String}
    (hbytes : w.files.readBytes ⟨"in"⟩ = .ok [1])
    (hother : w.files.samePlace ⟨"in"⟩ ⟨output⟩ = false)
    (hreusable : Remapper.Reusable w.files ⟨output⟩
      (({ tool, settings := {} } : Remapper).build twoLabels (.toOutputs "in" [output])
        (Digest.fingerprint [1]) "b")) :
    w.Reuses tool output := by
  obtain ⟨table, htable⟩ : ∃ table, Naming.RenameTable.ofCatalog twoLabels
      { source := "a", dest := "b" } = .ok table := ⟨_, rfl⟩
  have haccepted : Remapper.refused? (Run.toOutputs tool [output]).job (w.bench 0 0) = none := by
    rw [Remapper.refused?]
    exact List.find?_eq_none.2 fun target htarget => by
      rw [List.mem_singleton.1 htarget]
      exact Bool.eq_false_iff.1 hother
  exact ⟨_, perform_of_reusable h (.toOutputs tool [output]) ⟨"b", ⟨output⟩⟩ rfl rfl htable hbytes
    haccepted hreusable⟩

/-- A run that is repeated where it has left the tree takes its output again. -/
theorem World.Makes.reuses {w w' : World} {tool : Tool} {output : String}
    (hmakes : w.Makes tool output) (h : w.Sound) (htool : tool.WritesOnlyOutput) (h' : w'.Sound)
    (hfiles : w'.files = (w.step (.job (.toOutputs tool [output]))).files) :
    w'.Reuses tool output := by
  obtain ⟨hok, hbytes, hbytes', hother⟩ := hmakes
  have hreusable := reusable_after h htool ⟨"b", ⟨output⟩⟩ rfl hbytes hok
  rw [← hfiles] at hreusable hbytes' hother
  exact reuses_of_reusable h' hbytes' hother hreusable

/-- A tree with one input. -/
def oneInput : FileTree := { nodes := .ofList [(["in"], .file (.raw [1]))] }

theorem oneInput_plain : oneInput.Plain := FileTree.plain_of_nodes (by decide +kernel)

theorem oneInput_makes : (World.ofFiles oneInput).Makes .labelling "out" := by
  decide +kernel

-- ── Reuse ────────────────────────────────────────────────────────────────────

/-- A call of the tool, in a job that was run in a world, that stands behind an output: it left
    the content there, and it was made with the tool, for the input, with the tables and under
    the flags that the sidecar names. -/
structure Behind (w : World) (run : Run) (output : Path) (content : Content) (expected : Sidecar)
    (call : Call) : Prop where
  made : call ∈ w.calls run
  result : call.result = .ok ()
  place : call.request.output.place = output.place
  left : call.left.stat call.request.output = .ok (.file content)
  tool : call.remapper.tool.name = expected.tool
  input : ∃ bytes, w.files.readBytes call.request.input = .ok bytes
    ∧ Digest.fingerprint bytes = expected.inputDigest
  layers : call.request.layers.map Layer.fingerprint = expected.layers
  flags : call.remapper.settings.flags = expected.flags

/-- The run with the first targets of its job only. -/
def Run.upTo (run : Run) (n : Nat) : Run := { run with job := run.job.upTo n }

/-- A pair with the sidecar of a call tells how the call was made. -/
theorem Built.behind {w : World} {run : Run} {output : Path} {content record : Content}
    {call : Call} {bytes : Bytes} {s expected : Sidecar}
    (h : Built run.remapper run.job.input (Digest.fingerprint bytes) output content record call)
    (hmade : call ∈ w.calls run) (hbytes : w.files.readBytes run.job.input = .ok bytes)
    (hparse : Sidecar.parse? record.bytes = some s) (htool : s.tool = expected.tool)
    (hinput : s.inputDigest = expected.inputDigest) (hlayers : s.layers = expected.layers)
    (hflags : s.flags = expected.flags) : Behind w run output content expected call := by
  obtain ⟨time, hrecord⟩ := h.recorded
  rw [hrecord] at hparse
  obtain rfl := Option.some.inj ((Sidecar.parse?_render _).symm.trans hparse)
  refine ⟨hmade, h.result, h.place, h.left, ?_, ⟨bytes, ?_, hinput⟩, hlayers, ?_⟩
  · rw [h.remapper]
    exact htool
  · rw [h.input]
    exact hbytes
  · rw [h.remapper]
    exact hflags

/-- The content of an output was made in these events, in the way that is expected: a call of
    the tool in one of the jobs stands behind it, and nothing has voided it since. -/
def World.MadeIn (w : World) (events : List Event) (output : Path) (content : Content)
    (expected : Sidecar) : Prop :=
  ∃ past run since call, events = past ++ .job run :: since
    ∧ Behind (w.after past) run output content expected call
    ∧ (w.after (past ++ [.job run])).Undisturbed output.place since

/-- **Reuse is sound over whole histories.** Let a lawful history start from a tree without
    sidecars, and let a job then succeed and take an output again.  Unless a later target of the
    same job makes the output anew, there is at the output in the end what a call of a tool left
    there, in a job of the history that succeeded or for an earlier target of this job; the call
    was made with a tool of the same name, for an input with the same digest, with the same
    tables and under the same flags; and nothing has voided the output since. -/
theorem World.reuse_sound {outputs : Path → Prop} {start : FileTree} (hfresh : Fresh outputs start)
    {history : List Event} {current : Run}
    (hlawful : (ofFiles start).Lawful outputs (history ++ [.job current]))
    {before later : List Outcome} {outcome : Outcome} {b : Bench Request}
    (hrun : ((ofFiles start).after history).perform current
      = (.ok (before ++ outcome :: later), b))
    (hcached : outcome.cached = true)
    (hlater : ∀ o ∈ later, o.cached = false → o.output.place ≠ outcome.output.place) :
    ∃ content bytes, b.files.stat outcome.output = .ok (.file content)
      ∧ ((ofFiles start).after history).files.readBytes current.job.input = .ok bytes
      ∧ (ofFiles start).MadeIn (history ++ [.job (current.upTo before.length)]) outcome.output
        content (current.remapper.build current.catalog current.job (Digest.fingerprint bytes)
          outcome.label) := by
  obtain ⟨hhistory, ⟨hwrites, houtputs⟩, -⟩ := lawful_append.1 hlawful
  have hsound := after_sound (sound_ofFiles hfresh.plain) hhistory
  have hplain : (((ofFiles start).after history).bench current.owner current.now).files.Plain :=
    hsound.plain
  obtain ⟨b₁, bytes, content, record, s, ⟨target, htarget, houtput⟩, hbefore, hbytes, hname,
      hpaired, hlook, hparse, htool, hinput, hlayers, hflags, hstat⟩ :=
    Remapper.run_reuse hwrites
      (fun t ht o ho => hfresh.off _ _ (houtputs t ht) (houtputs o ho)) hplain
      (hsound.faithful current.owner) hrun hcached hlater
  -- the history up to the target whose output is taken again
  have hevents : (ofFiles start).Lawful outputs
      (history ++ [.job (current.upTo before.length)]) := by
    refine lawful_append.2 ⟨hhistory, ⟨hwrites, fun t ht => ?_⟩, trivial⟩
    exact houtputs t (List.mem_of_mem_take ht)
  have hend : ((ofFiles start).after (history ++ [.job (current.upTo before.length)])).files
      = b₁.files := by
    rw [after, List.foldl_append]
    exact congrArg (fun out => out.2.files) hbefore
  rw [← hend] at hpaired
  have hwatched : outputs outcome.output := houtput ▸ houtputs target htarget
  rcases origin_of_paired hfresh.off hname hwatched hlook (sound_ofFiles hfresh.plain) hevents hpaired with
    ⟨hstart, -⟩ | ⟨past, run, since, hsplit, ⟨source, hsource, call, hcall, hbuilt⟩, hundisturbed⟩
  · exact absurd hstart.sidecar (hfresh.noSidecar _ hwatched record)
  · exact ⟨content, bytes, hstat, hbytes, past, run, since, call, hsplit,
      hbuilt.behind hcall hsource hparse htool hinput hlayers hflags, hundisturbed⟩

/-- An output that was made, and is taken again after a job for it that was refused. -/
theorem World.reuse_sound_after_refusal :
    let history : List Event :=
      [.job (.toOutputs .labelling ["out"]), .job (.toOutputs .labelling ["out", "in"])]
    let current := Run.toOutputs .labelling ["out"]
    ∃ b, ((ofFiles oneInput).after history).perform current
        = (.ok [{ label := "b", output := ⟨"out"⟩, cached := true }], b)
      ∧ ∃ content bytes, b.files.stat ⟨"out"⟩ = .ok (.file content)
        ∧ ((ofFiles oneInput).after history).files.readBytes ⟨"in"⟩ = .ok bytes
        ∧ (ofFiles oneInput).MadeIn (history ++ [.job (current.upTo 0)]) ⟨"out"⟩ content
          (current.remapper.build current.catalog current.job (Digest.fingerprint bytes) "b") := by
  intro history current
  have hsound := sound_ofFiles oneInput_plain
  have hmade := hsound.toOutputs Tool.labelling_writesOnlyOutput ["out"]
  have hinput : Remapper.refused? (Run.toOutputs .labelling ["out", "in"]).job
      (((ofFiles oneInput).step (.job (.toOutputs .labelling ["out"]))).bench 0 0)
        = some ⟨"b", ⟨"in"⟩⟩ := by decide +kernel
  obtain ⟨b, hrun⟩ := oneInput_makes.reuses hsound Tool.labelling_writesOnlyOutput
    (hmade.toOutputs Tool.labelling_writesOnlyOutput ["out", "in"]) (perform_of_refused _ hinput).2
  have hnone : ∀ p ∈ [(⟨"out"⟩ : Path), ⟨"in"⟩], oneInput.at? (Sidecar.pathOf p).place = none := by
    decide +kernel
  have hoff : ∀ p ∈ [(⟨"out"⟩ : Path), ⟨"in"⟩], ∀ q ∈ [(⟨"out"⟩ : Path), ⟨"in"⟩],
      p.place ≠ (Sidecar.pathOf q).place ∧ p.place ≠ (Sidecar.temporaryPathOf q).place := by
    decide +kernel
  have hfresh : Fresh (· ∈ [(⟨"out"⟩ : Path), ⟨"in"⟩]) oneInput := by
    refine ⟨hsound.plain, fun p hp record hat => ?_, fun p q hp hq => ?_⟩
    · rw [hnone p hp] at hat
      cases hat
    · exact ⟨(hoff p hp q hq).1, (hoff p hp q hq).2⟩
  have hlawful : (ofFiles oneInput).Lawful (· ∈ [(⟨"out"⟩ : Path), ⟨"in"⟩])
      (history ++ [.job current]) :=
    ⟨⟨Tool.labelling_writesOnlyOutput, by decide⟩, ⟨Tool.labelling_writesOnlyOutput, by decide⟩,
      ⟨Tool.labelling_writesOnlyOutput, by decide⟩, trivial⟩
  have hrun' : ((ofFiles oneInput).after history).perform current
      = (.ok ([] ++ { label := "b", output := ⟨"out"⟩, cached := true } :: []), b) := hrun
  exact ⟨b, hrun, reuse_sound hfresh hlawful hrun' rfl fun o ho => absurd ho List.not_mem_nil⟩

/-- A run that makes one output for `b`, and then for `a` under another name. -/
def Run.twice : Run :=
  .of .labelling
    { input := ⟨"in"⟩
      source := "a"
      targets := [⟨"b", ⟨"out"⟩⟩, ⟨"a", ⟨"x/../out"⟩⟩]
      classpath := [] }

/-- Somebody takes a directory away, an output is invalidated, and the directory is back. -/
def World.detour (w : World) (top : Location) (p : Path) : List Event :=
  [.outside (w.files.remove top), .invalidate 0 [p], .outside w.files]

/-- If the path leads nowhere in between, nothing comes of it. -/
theorem World.Sound.detour {w : World} (h : w.Sound) {top : Location} {p : Path} {fault : IoFault}
    (hfault : (w.files.remove top).removeFile (Sidecar.pathOf p) = .error fault)
    (hoff : ∀ loc, loc = p.place ∨ loc = (Sidecar.pathOf p).place →
      FileTree.isWithin top loc = false) :
    w.Lawful (· = p) (w.detour top p) ∧ (w.after (w.detour top p)).Sound
      ∧ (w.after (w.detour top p)).files = w.files := by
  have hplain := h.plain.remove_all top
  have hdiscard : [p].foldl Sidecar.discard (w.files.remove top) = w.files.remove top := by
    rw [List.foldl_cons, List.foldl_nil, Sidecar.discard, hfault]
  have hlawful : w.Lawful (· = p) (w.detour top p) := by
    refine ⟨⟨hplain, fun q hq loc hloc content hat => ?_⟩, trivial, ⟨h.plain, ?_⟩, trivial⟩
    · exact FileTree.sheds_remove w.files top loc _ hat
    · rintro q rfl loc hloc content hat
      show ([q].foldl Sidecar.discard (w.files.remove top)).at? loc = some (.file content)
      rw [hdiscard, FileTree.at?_remove, if_neg fun hgone => ?_]
      · exact hat
      · rw [hoff loc hloc] at hgone
        cases hgone.1
  exact ⟨hlawful, after_sound h hlawful, rfl⟩

-- ── Long paths ───────────────────────────────────────────────────────────────

/-- A path to the file `out` through steps that stay where they are. -/
def dotted : Nat → Path
  | 0 => ⟨"out"⟩
  | n + 1 => ⟨"./" ++ (dotted n).text⟩

theorem toList_dotted (n : Nat) :
    (dotted (n + 1)).text.toList = ['.'] ++ '/' :: (dotted n).text.toList := by
  rw [dotted, String.toList_append]
  rfl

theorem size_dotted (n : Nat) : (dotted n).text.utf8ByteSize = 2 * n + 3 := by
  induction n with
  | zero => rfl
  | succ n ih =>
      have hdot : "./".utf8ByteSize = 2 := rfl
      rw [dotted, String.utf8ByteSize_append, ih, hdot]
      omega

theorem getLast?_dotted (n : Nat) : (dotted n).text.toList.getLast? = some 't' := by
  induction n with
  | zero => rfl
  | succ n ih => rw [toList_dotted, List.getLast?_append, List.getLast?_cons, ih]; rfl

theorem steps_dotted (n : Nat) :
    (dotted n).steps = List.replicate n .here ++ [.down "out"] := by
  have hpieces : Text.pieces '/' (dotted n).text.toList
      = List.replicate n ['.'] ++ ["out".toList] := by
    induction n with
    | zero => rfl
    | succ n ih =>
        rw [toList_dotted, Text.pieces_append (by decide), ih, List.replicate_succ]
        rfl
  have hslash : (dotted n).endsInSlash = false := by
    rw [Path.endsInSlash, getLast?_dotted]
    rfl
  have habsolute : (dotted n).isAbsolute = false := by
    cases n with
    | zero => rfl
    | succ n => rw [Path.isAbsolute, toList_dotted]; rfl
  rw [Path.steps, hslash, habsolute, Path.pieces, hpieces, List.map_append, List.map_replicate,
    List.filterMap_append, List.filterMap_replicate, if_neg Bool.false_ne_true,
    if_neg Bool.false_ne_true, List.append_nil]
  rfl

/-- Steps that stay lead nowhere else. -/
theorem walk_replicate_here (t : FileTree) (ending : FileTree.Ending) (base : Location) (n : Nat)
    (later : List Step) :
    t.walk ending base (List.replicate n .here ++ later) = t.walk ending base later := by
  induction n with
  | zero => rfl
  | succ n ih => rw [List.replicate_succ, List.cons_append, FileTree.walk, ih]

theorem holdsNul_dotted (n : Nat) : (dotted n).holdsNul = false := by
  induction n with
  | zero => rfl
  | succ n ih => rw [Path.holdsNul, toList_dotted, List.any_append, List.any_cons]; exact ih

theorem checkText_dotted {n : Nat} (h : 2 * n + 3 < 4096) :
    FileTree.checkText (dotted n) = .ok () := by
  have hne : (dotted n).text.isEmpty = false := by
    rw [String.isEmpty, size_dotted]
    exact beq_eq_false_iff_ne.2 (by omega)
  rw [FileTree.checkText, holdsNul_dotted, hne, size_dotted, if_neg Bool.false_ne_true,
    if_neg Bool.false_ne_true, if_neg (by exact Nat.not_le.2 h)]

theorem resolve_dotted {n : Nat} (h : 2 * n + 3 < 4096) (t : FileTree) (ending : FileTree.Ending) :
    t.resolve ending (dotted n) = t.resolve ending ⟨"out"⟩ := by
  rw [FileTree.resolve, FileTree.resolve, checkText_dotted h, steps_dotted]
  show FileTree.walkLinks _ _ _ _ _ = FileTree.walkLinks _ _ _ _ [.down "out"]
  rw [FileTree.linkLimit, FileTree.walkLinks, FileTree.walkLinks, walk_replicate_here]

/-- With a path that has no room for the suffix no sidecar is removed. -/
theorem Sidecar.discard_of_long {t : FileTree} {p : Path}
    (h : FileTree.pathLimit ≤ (Sidecar.pathOf p).text.utf8ByteSize) : Sidecar.discard t p = t := by
  obtain ⟨fault, hfault⟩ : ∃ fault, FileTree.checkText (Sidecar.pathOf p) = .error fault := by
    rw [FileTree.checkText, if_pos h]
    split
    · exact ⟨_, rfl⟩
    · split <;> exact ⟨_, rfl⟩
  have hremove : t.removeFile (Sidecar.pathOf p) = .error fault := by
    rw [FileTree.removeFile, FileTree.entryAt, hfault]
    rfl
  rw [Sidecar.discard, hremove]

/-- Nothing comes of an invalidation by such a path. -/
theorem World.files_invalidate_of_long (w : World) (owner : Nat) {p : Path}
    (h : FileTree.pathLimit ≤ (Sidecar.pathOf p).text.utf8ByteSize) :
    (w.step (.invalidate owner [p])).files = w.files :=
  Sidecar.discard_of_long h

theorem World.Sound.invalidate {w : World} (h : w.Sound) (owner : Nat) (outputs : List Path) :
    (w.step (.invalidate owner outputs)).Sound := by
  have hlawful : Event.Lawful (fun _ => True) w (.invalidate owner outputs) := trivial
  exact step_sound h hlawful

-- ── Reuse all the same ───────────────────────────────────────────────────────

/-- A tree with an input and a file that nobody has made. -/
def twoFiles : FileTree :=
  { nodes := .ofList [(["in"], .file (.raw [1])), (["out"], .file (.raw [7]))] }

/-- **What reuse does not wait for.** An output is taken again after a job for it that was
    refused; when a later target of the same job makes it anew; after it was invalidated by a
    path that led nowhere at the time, or by one that leads there and has no room for the suffix
    of the sidecar; if its sidecar was there from the start; and if the tool reported success and
    wrote nothing. -/
theorem World.reuses_all_the_same :
    (let w := (ofFiles oneInput).step (.job (.toOutputs .labelling ["out"]));
      (w.perform (.toOutputs .labelling ["out", "in"])).1 = .error (.outputIsInput ⟨"in"⟩)
      ∧ (w.step (.job (.toOutputs .labelling ["out", "in"]))).Reuses .labelling "out")
    ∧ (let w := (ofFiles oneInput).step (.job (.toOutputs .labelling ["out"]));
      (w.perform .twice).1 = .ok [{ label := "b", output := ⟨"out"⟩, cached := true },
        { label := "a", output := ⟨"x/../out"⟩, cached := false }]
      ∧ w.files.readBytes ⟨"out"⟩ = .ok [98]
      ∧ (w.perform .twice).2.files.readBytes ⟨"out"⟩ = .ok [97])
    ∧ (let w := (ofFiles oneInput).step (.job (.toOutputs .labelling ["x/../out"]));
      w.Lawful (· = ⟨"x/../out"⟩) (w.detour ["x"] ⟨"x/../out"⟩)
      ∧ (w.after (w.detour ["x"] ⟨"x/../out"⟩)).Reuses .labelling "x/../out")
    ∧ (let w := (ofFiles oneInput).step (.job (.toOutputs .labelling ["out"]));
      w.files.resolve .target (dotted 2041) = w.files.resolve .target ⟨"out"⟩
      ∧ (w.step (.invalidate 0 [dotted 2041])).Reuses .labelling "out")
    ∧ (let w := (ofFiles oneInput).step (.job (.toOutputs .labelling ["out"]));
      (ofFiles w.files).Reuses .labelling "out")
    ∧ (let w := (ofFiles twoFiles).step (.job (.toOutputs .idle ["x/../out"]));
      w.Reuses .idle "x/../out" ∧ w.files.readBytes ⟨"out"⟩ = .ok [7]) := by
  have hlabels := Tool.labelling_writesOnlyOutput
  have hsound := sound_ofFiles oneInput_plain
  have hmade := hsound.toOutputs hlabels ["out"]
  refine ⟨?_, ?_, ?_, ?_, ?_, ?_⟩
  · have hinput : Remapper.refused? (Run.toOutputs .labelling ["out", "in"]).job
        (((ofFiles oneInput).step (.job (.toOutputs .labelling ["out"]))).bench 0 0)
          = some ⟨"b", ⟨"in"⟩⟩ := by decide +kernel
    obtain ⟨herror, hfiles⟩ := perform_of_refused _ hinput
    exact ⟨herror, oneInput_makes.reuses hsound hlabels (hmade.toOutputs hlabels _) hfiles⟩
  · obtain ⟨table, htable⟩ : ∃ table, Naming.RenameTable.ofCatalog Run.twice.catalog
        (Run.twice.job.directionTo "b") = .ok table := ⟨_, rfl⟩
    have hreusable : Remapper.Reusable
        ((ofFiles oneInput).step (.job (.toOutputs .labelling ["out"]))).files ⟨"out"⟩
        (Run.twice.remapper.build Run.twice.catalog Run.twice.job (Digest.fingerprint [1]) "b") :=
      reusable_after hsound hlabels ⟨"b", ⟨"out"⟩⟩ rfl oneInput_makes.2.1 oneInput_makes.1
    dsimp only
    rw [perform_of_reusable hmade .twice ⟨"b", ⟨"out"⟩⟩ rfl rfl htable (by decide +kernel)
      (by decide +kernel) hreusable]
    decide +kernel
  · have hmakes : (ofFiles oneInput).Makes .labelling "x/../out" := by decide +kernel
    have hfault : (((ofFiles oneInput).step (.job (.toOutputs .labelling ["x/../out"]))).files.remove
        ["x"]).removeFile (Sidecar.pathOf ⟨"x/../out"⟩) = .error .notFound := by decide +kernel
    have hoff : ∀ loc, loc = Path.place ⟨"x/../out"⟩ ∨ loc = (Sidecar.pathOf ⟨"x/../out"⟩).place →
        FileTree.isWithin ["x"] loc = false := by
      rintro loc (rfl | rfl) <;> decide +kernel
    obtain ⟨hlawful, hafter, hfiles⟩ := (hsound.toOutputs hlabels ["x/../out"]).detour hfault hoff
    exact ⟨hlawful, hmakes.reuses hsound hlabels hafter hfiles⟩
  · have hlong : FileTree.pathLimit ≤ (Sidecar.pathOf (dotted 2041)).text.utf8ByteSize := by
      have hsuffix : ".remap.json".utf8ByteSize = 11 := rfl
      rw [Sidecar.pathOf, Path.append, String.utf8ByteSize_append, size_dotted, hsuffix,
        FileTree.pathLimit]
    exact ⟨resolve_dotted (by decide) _ _, oneInput_makes.reuses hsound hlabels
      (hmade.invalidate 0 _) (files_invalidate_of_long _ 0 hlong)⟩
  · exact oneInput_makes.reuses hsound hlabels (sound_ofFiles hmade.plain) (files_ofFiles _)
  · have hplain : twoFiles.Plain := FileTree.plain_of_nodes (by decide +kernel)
    have hfiles := sound_ofFiles hplain
    have hmakes : (ofFiles twoFiles).Makes .idle "x/../out" := by decide +kernel
    exact ⟨hmakes.reuses hfiles Tool.idle_writesOnlyOutput
      (hfiles.toOutputs Tool.idle_writesOnlyOutput _) rfl, by decide +kernel⟩

end Nomenclator.Remap
