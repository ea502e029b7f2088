import Nomenclator.Proofs.Remap.Target

/-! # Calls — which call of the tool made which output

    A job that succeeds tells for every target whether it was taken again.  `trace`
    makes the same targets and tells, beside every outcome, the call of the tool
    behind it: the request, and the tree in which it was made.  It is the same job
    (`makeTargets_eq_trace`), and what one target of it can do is said once, for a
    success (`Traced`) and for a failure (`Interrupted`). -/

namespace Nomenclator.Remap

open Files (Path FileTree)

/-- A call of the tool of a remapper: its request, and the tree in which it was made. -/
structure Call where
  remapper : Remapper
  request : Request
  found : FileTree

namespace Call

/-- Did the tool report success? -/
def result (call : Call) : Except (List String) Unit :=
  (call.remapper.tool.run call.request call.found).1

/-- The tree that the tool left. -/
def left (call : Call) : FileTree := (call.remapper.tool.run call.request call.found).2

end Call

namespace Remapper

open Act

variable (r : Remapper) (catalog : Naming.Catalog) (job : Job) (classpath : List Path)
  (inputDigest : String)

-- ── Tracing ──────────────────────────────────────────────────────────────────

/-- Makes a target, and tells the call of the tool that made it, if there was one. -/
def traceTarget (target : Target) : Act Request (Outcome × Option Call) :=
  r.prepare catalog job classpath inputDigest false target >>= fun
    | none =>
      return ({ label := target.label, output := target.output, cached := true }, none)
    | some request => do
      let b ← get
      let outcome ← r.answer job inputDigest target request
      return (outcome, some { remapper := r, request, found := b.files })

/-- Makes targets in order, and tells the calls that made them. -/
def trace : List Target → Act Request (List (Outcome × Option Call))
  | [] => return []
  | target :: later => do
    let made ← r.traceTarget catalog job classpath inputDigest target
    let others ← trace later
    return made :: others

theorem makeTarget_eq_traceTarget (target : Target) :
    r.makeTarget catalog job classpath inputDigest false target
      = Prod.fst <$> r.traceTarget catalog job classpath inputDigest target := by
  rw [makeTarget_eq, traceTarget, map_eq_pure_bind, bind_assoc]
  refine bind_congr fun found => ?_
  cases found with
  | none => rw [pure_bind]
  | some request =>
      simp only [bind_assoc, pure_bind, bind_pure]
      rfl

theorem makeTargets_eq_trace (targets : List Target) :
    r.makeTargets catalog job classpath inputDigest false targets
      = List.map Prod.fst <$> r.trace catalog job classpath inputDigest targets := by
  induction targets with
  | nil => rfl
  | cons target later ih =>
      rw [makeTargets, trace, makeTarget_eq_traceTarget, ih]
      simp only [map_eq_pure_bind, bind_assoc, pure_bind, List.map_cons]

-- ── One target ───────────────────────────────────────────────────────────────

/-- What one target that is made leaves behind: nothing new, if the output was taken again, or
    what the tool and the sidecar after it left. -/
def Traced (target : Target) (layers : List Layer) (b : Bench Request) :
    Outcome × Option Call → Bench Request → Prop
  | (outcome, none), b' =>
    outcome = { label := target.label, output := target.output, cached := true }
      ∧ b.Rests b' ∧ Reusable b.files target.output (r.sidecar inputDigest layers)
  | (outcome, some call), b' =>
    outcome = { label := target.label, output := target.output, cached := false }
      ∧ call.remapper = r ∧ call.request = r.request job target.output layers classpath
      ∧ call.found = prepared b.files target.output
      ∧ call.result = .ok () ∧ call.left.isFile target.output = true
      ∧ (Sidecar.save call.left target.output (stamped (r.sidecar inputDigest layers) b)).1 = .ok ()
      ∧ b'.files
        = (Sidecar.save call.left target.output (stamped (r.sidecar inputDigest layers) b)).2

theorem Traced.output {r : Remapper} {job : Job} {classpath : List Path} {inputDigest : String}
    {target : Target} {layers : List Layer} {b b' : Bench Request} {made : Outcome × Option Call}
    (h : r.Traced job classpath inputDigest target layers b made b') :
    made.1.label = target.label ∧ made.1.output = target.output := by
  obtain ⟨outcome, call?⟩ := made
  cases call? with
  | none => exact ⟨h.1 ▸ rfl, h.1 ▸ rfl⟩
  | some call => exact ⟨h.1 ▸ rfl, h.1 ▸ rfl⟩

/-- The trees that a target may leave behind when it fails. -/
def Interrupted (target : Target) (b b' : Bench Request) : Prop :=
  b'.files = b.files ∨ b'.files = prepared b.files target.output
    ∨ ∃ call : Call, call.remapper = r ∧ call.request.output = target.output
      ∧ call.found = prepared b.files target.output
      ∧ (b'.files = call.left ∨ call.left.isFile target.output = true
        ∧ ∃ s, b'.files = (Sidecar.save call.left target.output s).2)

theorem ends_answer (target : Target) (call : Call) {b : Bench Request}
    (hfound : b.files = call.found) :
    Ends (call.remapper.answer job inputDigest target call.request) b
      (fun outcome b' =>
        outcome = { label := target.label, output := target.output, cached := false }
          ∧ call.result = .ok () ∧ call.left.isFile call.request.output = true
          ∧ b'.cache = b.cache
          ∧ (Sidecar.save call.left target.output
              (stamped (call.remapper.sidecar inputDigest call.request.layers) b)).1 = .ok ()
          ∧ b'.files = (Sidecar.save call.left target.output
              (stamped (call.remapper.sidecar inputDigest call.request.layers) b)).2)
      (fun e b' => e.refusesOutput = false
        ∧ (b'.files = call.left ∨ call.left.isFile call.request.output = true
          ∧ ∃ s, b'.files = (Sidecar.save call.left target.output s).2)) := by
  have hleft : (call.remapper.afterTool call.request b).files = call.left := by
    rw [afterTool, hfound]
    rfl
  rw [answer]
  refine (ends_runTool call.remapper _ call.request b).mono (fun _ _ h => h)
    (fun e b' h => ⟨h.2, .inl (h.1 ▸ hleft)⟩) |>.bind fun _ b₁ hb₁ => ?_
  obtain ⟨rfl, hresult, hfile⟩ := hb₁
  rw [hfound] at hresult
  rw [hleft] at hfile
  refine (ends_saveSidecar target.output _ _).mono (fun _ _ h => h)
    (fun e b' h => ⟨h.2, .inr ⟨hfile, _, by rw [h.1, hleft]⟩⟩) |>.bind fun _ b₂ hb₂ => ?_
  obtain ⟨hsaved, rfl⟩ := hb₂
  rw [hleft] at hsaved
  exact ends_pure ⟨rfl, hresult, hfile, rfl, hsaved, by rw [hleft]; rfl⟩

theorem ends_traceTarget (target : Target) (b : Bench Request) :
    Ends (r.traceTarget catalog job classpath inputDigest target) b
      (fun made b' => b.cache.Grows b'.cache
        ∧ ∃ layers, r.Traced job classpath inputDigest target layers b made b'
          ∧ r.Drawn catalog job target.label layers b.cache b'.cache)
      (fun e b' => e.refusesOutput = false ∧ r.Interrupted target b b') := by
  have hprepare := (ends_prepare r catalog job classpath inputDigest false target b).mono
    (fun _ _ h => h) fun e b' h => (show e.refusesOutput = false ∧ r.Interrupted target b b' from by
      obtain ⟨hlate, t, ht | ht, hrests⟩ := h
      · exact ⟨hlate, .inl (hrests.files.trans ht)⟩
      · exact ⟨hlate, .inr (.inl (hrests.files.trans ht))⟩)
  refine hprepare.bind fun found b₁ hb₁ => ?_
  obtain ⟨layers, hprepared, hdrawn⟩ := hb₁
  cases found with
  | none => exact ends_pure ⟨hprepared.1.cache, layers, ⟨rfl, hprepared⟩, hdrawn⟩
  | some request =>
      obtain ⟨hrests, rfl⟩ := hprepared
      have hnow : b₁.now = b.now := hrests.now
      have hfound : b₁.files = prepared b.files target.output := hrests.files
      refine ends_get_bind ?_
      rw [hfound]
      have hanswer := ends_answer job inputDigest target
        ⟨r, r.request job target.output layers classpath, prepared b.files target.output⟩ hfound
      refine hanswer.mono (fun _ _ h => h)
        (fun e b' h => ⟨h.1, .inr (.inr ⟨_, rfl, rfl, rfl, h.2⟩)⟩) |>.bind fun outcome b₂ hb₂ => ?_
      obtain ⟨houtcome, hresult, hfile, hcache, hsaved, hfiles⟩ := hb₂
      rw [stamped, hnow] at hsaved hfiles
      refine ends_pure ⟨?_, layers, ⟨houtcome, rfl, rfl, rfl, hresult, hfile, hsaved, hfiles⟩, ?_⟩
      · rw [hcache]
        exact hrests.cache
      · rw [hcache]
        exact hdrawn

end Remapper

end Nomenclator.Remap
