import Nomenclator.Proofs.Remap.AllOrNothing
import Nomenclator.Proofs.Remap.Calls
import Nomenclator.Proofs.Remap.Sidecar

/-! # Pairs — an output and its sidecar change together

    An output is taken again for what its sidecar says.  So what matters is where a
    pair of files comes from, at the place of an output and at that of its sidecar.

    Preparing a target brings no file.  The tool writes its output and saving the
    sidecar, and both go to the places of one output.  So a pair that is there after
    a target was there before, or it is what the call of the tool and the sidecar
    after it left (`Traced.paired`).  When a target fails in between, half a pair may
    be new, but then the path of the target leads there (`Interrupted.paired`). -/

namespace Nomenclator.Remap

open Files Act

-- ── Preparing brings no file ─────────────────────────────────────────────────

theorem grows_withParent (t : FileTree) (path : Path) : t.Grows (withParent t path) := by
  rw [withParent]
  cases path.parent? with
  | none => exact .refl t
  | some parent => exact FileTree.createDirAll_grows t parent

theorem bringsNoFile_prepared (t : FileTree) (output : Path) :
    t.BringsNoFile (Remapper.prepared t output) :=
  (sheds_discarding t output).bringsNoFile.trans
    (grows_withParent (discarding t output) output).bringsNoFile

section Plain

variable {t : FileTree} (h : t.Plain)
include h

theorem Sidecar.discard_plain (output : Path) :
    t.Keeping (discard t output) ∧ ∀ loc, loc ≠ (pathOf output).place →
      (discard t output).at? loc = t.at? loc := by
  rw [discard]
  cases hremove : t.removeFile (pathOf output) with
  | error f => exact ⟨h.keeping, fun _ _ => rfl⟩
  | ok t' =>
      obtain ⟨hkeeping, hat⟩ := h.removeFile hremove
      exact ⟨hkeeping, fun loc hne => by rw [hat, if_neg hne]⟩

theorem discarding_plain (output : Path) :
    t.Keeping (discarding t output)
      ∧ ∀ loc, loc ≠ output.place → loc ≠ (Sidecar.pathOf output).place →
        (discarding t output).at? loc = t.at? loc := by
  have hwithout : t.Keeping (withoutOutput t output)
      ∧ ∀ loc, loc ≠ output.place → (withoutOutput t output).at? loc = t.at? loc := by
    rcases withoutOutput_cases t output with hsame | hremove
    · rw [hsame]
      exact ⟨h.keeping, fun _ _ => rfl⟩
    · obtain ⟨hkeeping, hat⟩ := h.removeFile hremove
      exact ⟨hkeeping, fun loc hne => by rw [hat, if_neg hne]⟩
  obtain ⟨hkeeping, hsidecar⟩ := Sidecar.discard_plain hwithout.1.plain output
  exact ⟨hwithout.1.trans hkeeping,
    fun loc hplace hne => (hsidecar loc hne).trans (hwithout.2 loc hplace)⟩

theorem keeping_discardingAll (targets : List Target) : t.Keeping (discardingAll t targets) := by
  rw [discardingAll]
  induction targets generalizing t with
  | nil => exact h.keeping
  | cons target later ih =>
      have hfirst := (discarding_plain h target.output).1
      exact hfirst.trans (ih hfirst.plain)

theorem keeping_withParent (path : Path) : t.Keeping (withParent t path) := by
  rw [withParent]
  cases path.parent? with
  | none => exact h.keeping
  | some parent => exact h.createDirAll parent

theorem keeping_prepared (output : Path) : t.Keeping (Remapper.prepared t output) :=
  have hdiscarding := (discarding_plain h output).1
  hdiscarding.trans (keeping_withParent hdiscarding.plain output)

/-- A file elsewhere stays while a target is prepared. -/
theorem at?_prepared {output : Path} {loc : Location} {content : Content}
    (hplace : loc ≠ output.place) (hsidecar : loc ≠ (Sidecar.pathOf output).place)
    (hat : t.at? loc = some (.file content)) :
    (Remapper.prepared t output).at? loc = some (.file content) := by
  rw [← (discarding_plain h output).2 loc hplace hsidecar] at hat
  rcases grows_withParent (discarding t output) output loc with hsame | ⟨hnone, -⟩
  · exact hsame.trans hat
  · rw [hnone] at hat
    exact nomatch hat

end Plain

-- ── The tool ─────────────────────────────────────────────────────────────────

/-- The tool writes only the output of its request: in a plain tree nothing else changes than
    what is where the output's path leads, and that is no directory. -/
def Tool.WritesOnlyOutput (tool : Tool) : Prop :=
  ∀ (request : Request) (t : FileTree), t.Plain → (tool.run request t).2.Plain
    ∧ ∀ loc, (tool.run request t).2.at? loc ≠ t.at? loc →
      t.resolve .target request.output = .ok loc ∧ t.at? loc ≠ some .dir

/-- The tool at most writes a file to the output of its request. -/
def Tool.WritesFile (tool : Tool) : Prop :=
  ∀ (request : Request) (t : FileTree), t.Plain → (tool.run request t).2 = t
    ∨ ∃ content, t.write request.output content = .ok (tool.run request t).2

theorem Tool.WritesFile.writesOnlyOutput {tool : Tool} (h : tool.WritesFile) :
    tool.WritesOnlyOutput := by
  intro request t hplain
  rcases h request t hplain with hsame | ⟨content, hwrite⟩
  · rw [hsame]
    exact ⟨hplain, fun loc hne => absurd rfl hne⟩
  · obtain ⟨loc, hloc, hdir, -⟩ := FileTree.write_eq_ok hwrite
    obtain ⟨hkeeping, hat⟩ := hplain.write hwrite
    refine ⟨hkeeping.plain, fun other hne => ?_⟩
    obtain rfl : other = loc := by
      by_contra hother
      rw [(hplain.resolve_eq_ok hloc).1] at hother
      exact hne (by rw [hat, if_neg hother])
    exact ⟨hplain.resolve_target hloc FileTree.Ending.noConfusion, hdir⟩

/-- A tool that does nothing but write to the output, and reports how that went. -/
theorem Tool.writesFile_of_run {tool : Tool} (contentOf : Request → Content)
    (h : ∀ request t, tool.run request t = match t.write request.output (contentOf request) with
      | .ok t => (.ok (), t)
      | .error fault => (.error [fault.message], t)) : tool.WritesFile := by
  intro request t _
  rw [h request t]
  cases hwrite : t.write request.output (contentOf request) with
  | error fault => exact .inl rfl
  | ok t' => exact .inr ⟨contentOf request, hwrite⟩

namespace Call

variable {call : Call} (htool : call.remapper.tool.WritesOnlyOutput) (hplain : call.found.Plain)
include htool hplain

theorem keeping : call.found.Keeping call.left := by
  obtain ⟨hleft, hchanges⟩ := htool call.request call.found hplain
  refine ⟨hleft, fun loc hdir => ?_⟩
  by_contra hne
  exact (hchanges loc fun heq => hne (heq.trans hdir)).2 hdir

theorem at?_left {loc : Location} (hloc : loc ≠ call.request.output.place) :
    call.left.at? loc = call.found.at? loc := by
  by_contra hne
  have hresolve := ((htool call.request call.found hplain).2 loc hne).1
  exact hloc (hplain.resolve_eq_ok hresolve).1

/-- What the tool has changed is where the path of its output leads. -/
theorem leads_left {loc : Location} (hne : call.left.at? loc ≠ call.found.at? loc) :
    call.left.resolve .target call.request.output = .ok loc :=
  have hkeeping := keeping htool hplain
  hplain.resolve_keeps hkeeping.plain hkeeping.dirs
    ((htool call.request call.found hplain).2 loc hne).1

end Call

-- ── Pairs ────────────────────────────────────────────────────────────────────

/-- At the place of an output and at that of its sidecar there are these files. -/
structure Paired (t : FileTree) (p : Path) (content record : Content) : Prop where
  output : t.at? p.place = some (.file content)
  sidecar : t.at? (Sidecar.pathOf p).place = some (.file record)

theorem Paired.before {t t' : FileTree} {p : Path} {content record : Content}
    (h : Paired t' p content record) (hfiles : t.BringsNoFile t') : Paired t p content record :=
  ⟨hfiles _ _ h.output, hfiles _ _ h.sidecar⟩

/-- The first output is neither where the sidecar of the second stands nor where it is written
    first. -/
structure OffSidecar (p q : Path) : Prop where
  sidecar : p.place ≠ (Sidecar.pathOf q).place
  temporary : p.place ≠ (Sidecar.temporaryPathOf q).place

namespace Call

variable {call : Call} (htool : call.remapper.tool.WritesOnlyOutput) (hplain : call.found.Plain)
  {watched : Path} {content record : Content}
include htool hplain

/-- A pair that is there after the tool was there before, or the path of the output leads to
    it. -/
theorem paired_left (hoff : OffSidecar call.request.output watched)
    (h : Paired call.left watched content record) :
    Paired call.found watched content record
      ∨ call.left.resolve .target call.request.output = .ok watched.place := by
  by_cases hsame : call.left.at? watched.place = call.found.at? watched.place
  · refine .inl ⟨hsame.symm.trans h.output, ?_⟩
    rw [← at?_left htool hplain (Ne.symm hoff.sidecar)]
    exact h.sidecar
  · exact .inr (leads_left htool hplain hsame)

variable (hfile : call.left.isFile call.request.output = true)
include hfile

theorem leads_of_isFile : call.left.resolve .target call.request.output
    = .ok call.request.output.place := by
  obtain ⟨content, hstat⟩ := FileTree.stat_of_isFile hfile
  exact ((keeping htool hplain).plain.stat_file hstat).1

theorem saved (s : Sidecar) :
    Sidecar.Saved call.left call.request.output s
      (Sidecar.save call.left call.request.output s) := by
  obtain ⟨content, hstat⟩ := FileTree.stat_of_isFile hfile
  exact Sidecar.saved_save (keeping htool hplain).plain (FileTree.namesFile_of_stat hstat) s

/-- Saving a sidecar changes the pair of its output, and no other. -/
theorem paired_save (hwatched : watched.NamesFile) (hoff : OffSidecar watched call.request.output)
    {s : Sidecar}
    (h : Paired (Sidecar.save call.left call.request.output s).2 watched content record) :
    call.left.at? watched.place = some (.file content)
      ∧ if call.request.output.place = watched.place
        then (Sidecar.save call.left call.request.output s).1 = .ok () → record = s.file
        else Paired call.left watched content record := by
  have hsaved := saved htool hplain hfile s
  obtain ⟨_, hstat⟩ := FileTree.stat_of_isFile hfile
  have hname := FileTree.namesFile_of_stat hstat
  have hcontent := hsaved.elsewhere _ hoff.temporary hoff.sidecar
  refine ⟨hcontent.symm.trans h.output, ?_⟩
  by_cases hplace : call.request.output.place = watched.place
  · rw [if_pos hplace]
    intro hok
    have hrecord := hsaved.written hok
    rw [Sidecar.place_pathOf_congr hname hwatched hplace, h.sidecar] at hrecord
    exact Node.file.inj (Option.some.inj hrecord)
  · rw [if_neg hplace]
    refine ⟨hcontent.symm.trans h.output, ?_⟩
    rw [← hsaved.elsewhere _ (Sidecar.place_temporary_ne hname hwatched).symm fun heq =>
      hplace (Sidecar.place_eq_of_pathOf hwatched hname heq).symm]
    exact h.sidecar

end Call

/-- A call of the tool left the content at an output, and the record is the sidecar that was
    written for it. -/
structure Built (r : Remapper) (input : Path) (inputDigest : String) (output : Path)
    (content record : Content) (call : Call) : Prop where
  remapper : call.remapper = r
  input : call.request.input = input
  place : call.request.output.place = output.place
  result : call.result = .ok ()
  left : call.left.stat call.request.output = .ok (.file content)
  recorded : ∃ time, record
    = ({ r.sidecar inputDigest call.request.layers with writtenAt := time } : Sidecar).file

namespace Remapper

variable {r : Remapper} (htool : r.tool.WritesOnlyOutput) {job : Job} {classpath : List Path}
  {inputDigest : String} {target : Target} {b b' : Bench Request} (hplain : b.files.Plain)
  {layers : List Layer} {outcome : Outcome} {call : Call}
include htool hplain

/-- The call that makes a target, the trees around it, and what is left in the end. -/
theorem Traced.answered
    (h : r.Traced job classpath inputDigest target layers b (outcome, some call) b') :
    call.remapper.tool.WritesOnlyOutput ∧ call.request.output = target.output
      ∧ b.files.Keeping call.found ∧ call.left.isFile call.request.output = true
      ∧ b'.files = (Sidecar.save call.left call.request.output
        (stamped (r.sidecar inputDigest layers) b)).2
      ∧ b.files.Keeping b'.files := by
  obtain ⟨-, rfl, hrequest, hfound, -, hfile, -, hfiles⟩ := h
  have houtput : call.request.output = target.output := by rw [hrequest]; rfl
  have hprepared := keeping_prepared hplain target.output
  rw [← hfound] at hprepared
  rw [← houtput] at hfile hfiles
  have hkeeping := Call.keeping htool hprepared.plain
  have hsaved := Call.saved htool hprepared.plain hfile
    (stamped (call.remapper.sidecar inputDigest layers) b)
  refine ⟨htool, houtput, hprepared, hfile, hfiles, ?_⟩
  rw [hfiles]
  exact (hprepared.trans hkeeping).trans hsaved.keeping

theorem Traced.keeping {made : Outcome × Option Call}
    (h : r.Traced job classpath inputDigest target layers b made b') :
    b.files.Keeping b'.files := by
  obtain ⟨outcome, call?⟩ := made
  cases call? with
  | none =>
      obtain ⟨-, hrests, -⟩ := h
      rw [hrests.files]
      exact hplain.keeping
  | some call => exact (Traced.answered htool hplain h).2.2.2.2.2

theorem Interrupted.keeping (h : r.Interrupted target b b') : b.files.Keeping b'.files := by
  have hprepared := keeping_prepared hplain target.output
  rcases h with hsame | hsame | ⟨call, rfl, houtput, hfound, hstage⟩
  · rw [hsame]
    exact hplain.keeping
  · rw [hsame]
    exact hprepared
  · rw [← hfound] at hprepared
    rw [← houtput] at hstage
    have hkeeping := hprepared.trans (Call.keeping htool hprepared.plain)
    rcases hstage with hfiles | ⟨hfile, s, hfiles⟩
    · rw [hfiles]
      exact hkeeping
    · rw [hfiles]
      exact hkeeping.trans (Call.saved htool hprepared.plain hfile s).keeping

variable {watched : Path} (hoff : OffSidecar watched target.output)
include hoff

/-- A target that is made elsewhere leaves a file that is there. -/
theorem Traced.at?_watched {made : Outcome × Option Call}
    (h : r.Traced job classpath inputDigest target layers b made b')
    (helsewhere : made.1.cached = false → target.output.place ≠ watched.place) {content : Content}
    (hat : b.files.at? watched.place = some (.file content)) :
    b'.files.at? watched.place = some (.file content) := by
  obtain ⟨outcome, call?⟩ := made
  cases call? with
  | none =>
      obtain ⟨-, hrests, -⟩ := h
      rw [hrests.files]
      exact hat
  | some call =>
      obtain ⟨htool', houtput, hprepared, hfile, hfiles, -⟩ := Traced.answered htool hplain h
      have hplace : watched.place ≠ target.output.place := (helsewhere (by rw [h.1])).symm
      have hthere := at?_prepared hplain hplace hoff.sidecar hat
      rw [← h.2.2.2.1] at hthere
      rw [← houtput] at hoff hplace
      have hsaved := Call.saved htool' hprepared.plain hfile
        (stamped (r.sidecar inputDigest layers) b)
      rw [hfiles, hsaved.elsewhere _ hoff.temporary hoff.sidecar,
        Call.at?_left htool' hprepared.plain hplace]
      exact hthere

variable (hwatched : watched.NamesFile) (hoff' : OffSidecar target.output watched)
include hwatched hoff'

/-- **What a made target leaves behind.** -/
theorem Traced.paired {made : Outcome × Option Call}
    (h : r.Traced job classpath inputDigest target layers b made b') {content record : Content}
    (hpaired : Paired b'.files watched content record) :
    Paired b.files watched content record ∨ ∃ call, made.2 = some call
      ∧ Built r job.input inputDigest watched content record call
      ∧ b'.files.resolve .target target.output = .ok watched.place := by
  obtain ⟨outcome, call?⟩ := made
  cases call? with
  | none =>
      obtain ⟨-, hrests, -⟩ := h
      rw [hrests.files] at hpaired
      exact .inl hpaired
  | some call =>
      obtain ⟨htool', houtput, hprepared, hfile, hfiles, -⟩ := Traced.answered htool hplain h
      obtain ⟨-, hremapper, hrequest, hfound, hresult, -, hok, -⟩ := h
      rw [← houtput] at hok hoff hoff' ⊢
      have hkeeping := Call.keeping htool' hprepared.plain
      have hsaved := Call.saved htool' hprepared.plain hfile
        (stamped (r.sidecar inputDigest layers) b)
      have hleads := Call.leads_of_isFile htool' hprepared.plain hfile
      rw [hfiles] at hpaired ⊢
      obtain ⟨hcontent, hrecord⟩ :=
        Call.paired_save htool' hprepared.plain hfile hwatched hoff hpaired
      by_cases hplace : call.request.output.place = watched.place
      · rw [if_pos hplace] at hrecord
        rw [hplace] at hleads
        refine .inr ⟨call, rfl, ⟨hremapper, by rw [hrequest]; rfl, hplace, hresult,
          FileTree.stat_of_resolve hleads hcontent, b.now, ?_⟩,
          hkeeping.plain.resolve_keeps hsaved.keeping.plain hsaved.keeping.dirs hleads⟩
        rw [hrecord hok, hrequest]
        rfl
      · rw [if_neg hplace] at hrecord
        rcases Call.paired_left htool' hprepared.plain hoff' hrecord with hbefore | hthere
        · rw [hfound] at hbefore
          exact .inl (hbefore.before (bringsNoFile_prepared _ _))
        · exact absurd (hkeeping.plain.resolve_eq_ok hthere).1.symm hplace

/-- **What a failed target leaves behind.** -/
theorem Interrupted.paired (h : r.Interrupted target b b') {content record : Content}
    (hpaired : Paired b'.files watched content record) :
    Paired b.files watched content record
      ∨ b'.files.resolve .target target.output = .ok watched.place := by
  have hprepared := keeping_prepared hplain target.output
  rcases h with hsame | hsame | ⟨call, rfl, houtput, hfound, hstage⟩
  · exact .inl (hsame ▸ hpaired)
  · exact .inl ((hsame ▸ hpaired).before (bringsNoFile_prepared _ _))
  · rw [← hfound] at hprepared
    rw [← houtput] at hstage hoff hoff' ⊢
    have hkeeping := Call.keeping htool hprepared.plain
    have hleft : Paired call.left watched content record →
        Paired b.files watched content record
          ∨ call.left.resolve .target call.request.output = .ok watched.place := by
      intro hpaired
      refine (Call.paired_left htool hprepared.plain hoff' hpaired).imp_left fun hbefore => ?_
      rw [hfound] at hbefore
      exact hbefore.before (bringsNoFile_prepared _ _)
    rcases hstage with hfiles | ⟨hfile, s, hfiles⟩
    · rw [hfiles] at hpaired ⊢
      exact hleft hpaired
    · have hsaved := Call.saved htool hprepared.plain hfile s
      have hleads := Call.leads_of_isFile htool hprepared.plain hfile
      have hstays : ∀ loc, call.left.resolve .target call.request.output = .ok loc → _ :=
        fun loc => hkeeping.plain.resolve_keeps hsaved.keeping.plain hsaved.keeping.dirs
      rw [hfiles] at hpaired ⊢
      obtain ⟨-, hrecord⟩ :=
        Call.paired_save htool hprepared.plain hfile hwatched hoff hpaired
      by_cases hplace : call.request.output.place = watched.place
      · rw [hplace] at hleads
        exact .inr (hstays _ hleads)
      · rw [if_neg hplace] at hrecord
        exact (hleft hrecord).imp_right (hstays _)

end Remapper

end Nomenclator.Remap
