import Nomenclator.Proofs.Files.Sibling
import Nomenclator.Proofs.Remap.History
import Nomenclator.Proofs.Remap.SourceKept

/-! # Archives that are remapped in place

    An archive is moved to its dev path, and a job makes it anew from there.  If the
    job fails, its outputs are discarded, and then the archive is moved back.

    * `ends_remapInPlace` — all that such a run can do, for every exit;
    * `Unwound` — the tree that is left of a job that failed: the output is no file,
      and what has changed is at the places of the output, its sidecar, and the file
      as which that is written first;
    * `remapInPlace_completes_or_restores` — the run completes, or the archive is
      what it was. -/

namespace Nomenclator

namespace Files.Path

/-- A name is its stem, or its stem, a dot and its extension. -/
theorem splitName_cases (name : String) :
    splitName name = (name, none)
      ∨ ∃ stem extension, splitName name = (stem, some extension) ∧ stem ≠ ""
        ∧ name = stem ++ "." ++ extension := by
  have hwhole := List.takeWhile_append_dropWhile (p := (· != '.')) (l := name.toList.reverse)
  have hsplit := congrArg (List.drop (name.toList.reverse.takeWhile (· != '.')).length) hwhole
  rw [List.drop_left] at hsplit
  have hdot := List.head?_dropWhile_not (· != '.') name.toList.reverse
  rw [splitName, ← hsplit]
  generalize name.toList.reverse.takeWhile (· != '.') = after at hwhole ⊢
  cases hrest : name.toList.reverse.dropWhile (· != '.') with
  | nil => exact .inl rfl
  | cons dot before =>
      rw [hrest] at hwhole hdot
      obtain rfl : dot = '.' := by simpa using hdot
      dsimp only
      by_cases hempty : before.isEmpty = true
      · rw [if_pos hempty]
        exact .inl rfl
      · rw [if_neg hempty]
        refine .inr ⟨_, _, rfl, fun hstem => hempty ?_, String.toList_inj.1 ?_⟩
        · have hnil := congrArg String.toList hstem
          rw [String.toList_ofList, String.toList_empty, List.reverse_eq_nil_iff] at hnil
          rw [hnil]
          rfl
        · rw [← List.reverse_reverse name.toList, ← hwhole]
          simp [String.toList_append]

end Files.Path

namespace Remap

open Files Act

-- ── The dev path ─────────────────────────────────────────────────────────────

/-- The second path spells a place in the directory of the first, with a longer name. -/
structure Beside (archive dev : Path) : Prop where
  names : ∃ dir name other, archive.place = dir ++ [.ofText name]
    ∧ dev.place = dir ++ [.ofText other] ∧ name.length < other.length
  file : dev.NamesFile

theorem Beside.place_ne {archive dev : Path} (h : Beside archive dev) :
    archive.place ≠ dev.place := by
  obtain ⟨dir, name, other, harchive, hdev, hlonger⟩ := h.names
  rw [harchive, hdev]
  intro heq
  rw [(Name.concat_ofText_inj heq).2] at hlonger
  exact Nat.lt_irrefl _ hlonger

theorem step_of_long {name : String} (h : 2 < name.length) :
    Step.ofPiece? name = some (.down name) := by
  have hne : ∀ short : String, short.length ≤ 2 → name ≠ short := by
    rintro short hshort rfl
    omega
  rw [Step.ofPiece?, if_neg (hne "" (by decide)), if_neg (hne "." (by decide)),
    if_neg (hne ".." (by decide))]

/-- A name with something after it is a name. -/
theorem step_append {name suffix : String} (hname : Step.ofPiece? name = some (.down name))
    (hsuffix : 0 < suffix.length) :
    Step.ofPiece? (name ++ suffix) = some (.down (name ++ suffix)) := by
  by_cases hlong : 2 < (name ++ suffix).length
  · exact step_of_long hlong
  rw [String.length_append] at hlong
  -- a name of one character is no dot
  have hone : name.toList.length = 1 := by
    have hne : name.length ≠ 0 := by
      intro hzero
      rw [String.length_eq_zero_iff.1 hzero] at hname
      cases hname
    rw [String.length_toList]
    omega
  have hstart : ∀ text, name ++ suffix = text → name.toList = text.toList.take 1 := by
    rintro text rfl
    rw [String.toList_append, ← hone, List.take_left]
  have hdot : name ≠ "." := by
    rintro rfl
    exact absurd hname (by decide)
  rw [Step.ofPiece?, if_neg, if_neg, if_neg]
  · intro heq
    exact hdot (String.toList_inj.1 (hstart ".." heq))
  · intro heq
    exact hdot (String.toList_inj.1 (hstart "." heq))
  · intro heq
    rw [hstart "" heq] at hone
    cases hone

/-- The name of the dev path: it holds no slash and is longer than that of the archive. -/
theorem devPath_eq {archive : Path} {kept dropped : List String} {name : String}
    (hcut : archive.Cut kept dropped name) {settings : Settings}
    (hvalid : settings.validate = .ok ()) :
    ∃ other, devPath archive settings.devSuffix = archive.withFileName other
      ∧ '/' ∉ other.toList ∧ Step.ofPiece? other = some (.down other)
      ∧ name.length < other.length := by
  generalize hsuffix : settings.devSuffix = suffix
  obtain ⟨hne, hslash⟩ : suffix ≠ "" ∧ '/' ∉ suffix.toList := by
    rw [Settings.validate, hsuffix] at hvalid
    by_cases hempty : suffix = ""
    · rw [if_pos hempty] at hvalid
      cases hvalid
    rw [if_neg hempty] at hvalid
    refine ⟨hempty, fun hmem => ?_⟩
    rw [if_pos (List.any_eq_true.2 ⟨'/', hmem, rfl⟩)] at hvalid
    cases hvalid
  have hlong : 0 < suffix.length :=
    Nat.pos_of_ne_zero fun hzero => hne (String.length_eq_zero_iff.1 hzero)
  have hname : '/' ∉ name.toList :=
    Path.not_mem_of_mem_pieces (hcut.pieces ▸ List.mem_append_right _ List.mem_cons_self)
  have hstep := hcut.step
  rw [devPath, Path.extension?, Path.stem, hcut.fileName]
  dsimp only [Option.bind]
  rcases Path.splitName_cases name with hsplit | ⟨stem, extension, hsplit, hstem, rfl⟩
  · rw [hsplit]
    refine ⟨name ++ suffix, rfl, ?_, step_append hstep hlong, ?_⟩
    · rw [String.toList_append, List.mem_append, not_or]
      exact ⟨hname, hslash⟩
    · rw [String.length_append]
      omega
  · rw [hsplit]
    have hstem' : 0 < stem.length :=
      Nat.pos_of_ne_zero fun hzero => hstem (String.length_eq_zero_iff.1 hzero)
    have hdot : ".".length = 1 := rfl
    refine ⟨stem ++ suffix ++ "." ++ extension, rfl, ?_, step_of_long ?_, ?_⟩
    · simp only [String.toList_append, List.mem_append, not_or] at hname ⊢
      exact ⟨⟨⟨hname.1.1, hslash⟩, hname.1.2⟩, hname.2⟩
    · simp only [String.length_append]
      omega
    · simp only [String.length_append]
      omega

theorem beside_devPath {archive : Path} {kept dropped : List String} {name : String}
    (hcut : archive.Cut kept dropped name) {settings : Settings}
    (hvalid : settings.validate = .ok ()) :
    Beside archive (devPath archive settings.devSuffix) := by
  obtain ⟨other, hdev, hslash, hstep, hlonger⟩ := devPath_eq hcut hvalid
  obtain ⟨dir, harchive, hplace⟩ := hcut.place_withFileName hslash hstep
  rw [hdev]
  exact ⟨⟨dir, name, other, harchive, hplace, hlonger⟩, hcut.namesFile_withFileName hslash hstep⟩

/-- A dev path at the place of a path with a suffix is that path. -/
theorem sameAs_of_place {archive : Path} {kept dropped : List String} {name : String}
    (hcut : archive.Cut kept dropped name) {settings : Settings}
    (hvalid : settings.validate = .ok ()) {suffix : String} (hsuffix : Path.Suffix suffix)
    (hplace : (devPath archive settings.devSuffix).place = (archive.append suffix).place) :
    (devPath archive settings.devSuffix).sameAs (archive.append suffix) = true := by
  obtain ⟨other, hdev, hslash, hstep, -⟩ := devPath_eq hcut hvalid
  obtain ⟨dir, harchive, hother⟩ := hcut.place_withFileName hslash hstep
  have hlast : archive.steps.getLast? = some (.down name) := by
    rw [hcut.steps_eq, ← List.append_assoc, List.getLast?_concat]
  obtain ⟨dir', name', harchive', happend⟩ := Path.NamesFile.place_append ⟨_, hlast⟩
  rw [hdev] at hplace ⊢
  rw [hother, happend hsuffix] at hplace
  obtain rfl := (Name.concat_ofText_inj (harchive.symm.trans harchive')).2
  rw [(Name.concat_ofText_inj hplace).2]
  exact hcut.sameAs_append hsuffix

-- ── The run ──────────────────────────────────────────────────────────────────

namespace Act

variable {ρ α : Type} {b : Bench ρ}

theorem Ends.and {act : Act ρ α} {Q Q' : α → Bench ρ → Prop} {E E' : Error → Bench ρ → Prop}
    (h : Ends act b Q E) (h' : Ends act b Q' E') :
    Ends act b (fun a b' => Q a b' ∧ Q' a b') (fun e b' => E e b' ∧ E' e b') := by
  have hfirst := h.holds
  have hsecond := h'.holds
  refine ⟨?_⟩
  generalize act.run.run b = out at hfirst hsecond ⊢
  obtain ⟨result, b'⟩ := out
  cases result with
  | ok a => exact ⟨hfirst, hsecond⟩
  | error e => exact ⟨hfirst, hsecond⟩

theorem ends_change (path : Path) (operation : FileTree → Except IoFault FileTree) (b : Bench ρ) :
    Ends (change path operation) b
      (fun _ b' => ∃ t, operation b.files = .ok t ∧ b' = { b with files := t })
      (fun e b' => b' = b ∧ ∃ fault, e = .io path fault) := by
  rw [change]
  refine ends_get_bind ?_
  cases operation b.files with
  | ok t => exact ⟨⟨t, rfl, rfl⟩⟩
  | error fault => exact ends_throw ⟨rfl, fault, rfl⟩

/-- Moving aside removes an older file there and renames the archive, or stops at a failure. -/
theorem ends_moveAside (archive dev : Path) (b : Bench ρ) :
    Ends (moveAside archive dev) b
      (fun _ b' => ∃ m, SourceRemapper.movedAside b.files archive dev = .ok m
        ∧ Bench.Rests { b with files := m } b')
      (fun _ b' => b'.files = b.files ∨ b.files.removeFile dev = .ok b'.files) := by
  have hrename : ∀ u, (if b.files.pathExists dev then b.files.removeFile dev else .ok b.files)
        = .ok u →
      (u = b.files ∨ b.files.removeFile dev = .ok u) →
      Ends (do
          change archive (·.rename archive dev)
          let source := archive.text
          let dest := dev.text
          report .info s!":moved {source} to {dest}") { b with files := u }
        (fun _ b' => ∃ m, SourceRemapper.movedAside b.files archive dev = .ok m
          ∧ Bench.Rests { b with files := m } b')
        (fun _ b' => b'.files = b.files ∨ b.files.removeFile dev = .ok b'.files) := by
    intro u hu hless
    refine (ends_change archive _ _).mono (fun _ _ h => h) (fun e b' h => h.1 ▸ hless)
      |>.bind fun _ b₁ hb₁ => ?_
    obtain ⟨m, hm, rfl⟩ := hb₁
    refine (ends_report _ _ _).mono (fun _ b₂ hb₂ => ?_) fun _ _ h => h
    exact ⟨m, Outcome.bind_eq_ok.2 ⟨u, hu, hm⟩, hb₂⟩
  rw [moveAside]
  refine ends_get_bind ?_
  dsimp only
  by_cases hfound : b.files.pathExists dev = true
  · rw [if_pos hfound] at hrename ⊢
    refine (ends_change dev _ b).mono (fun _ _ h => h) (fun e b' h => .inl (h.1 ▸ rfl))
      |>.bind fun _ b₁ hb₁ => ?_
    obtain ⟨u, hu, rfl⟩ := hb₁
    exact hrename u hu (.inr hu)
  · rw [if_neg hfound] at hrename ⊢
    exact hrename b.files rfl (.inl rfl)

/-- The tree in which an archive has been moved back, if it can be. -/
def movedBack (t : FileTree) (archive dev : Path) : FileTree :=
  match t.rename dev archive with
  | .ok u => u
  | .error _ => t

theorem ends_moveBack (archive dev : Path) (b : Bench ρ) {E : Error → Bench ρ → Prop} :
    Ends (moveBack archive dev) b (fun _ b' => b'.files = movedBack b.files archive dev) E := by
  rw [moveBack, movedBack]
  refine ends_get_bind ?_
  cases b.files.rename dev archive with
  | ok u => exact ⟨rfl⟩
  | error fault => exact ⟨rfl⟩

end Act

namespace Remapper

variable (r : Remapper) (catalog : Naming.Catalog)

/-- With `force` no output is taken again. -/
theorem ends_prepare_forced (job : Job) (classpath : List Path) (inputDigest : String)
    (target : Target) (b : Bench Request) :
    Ends (r.prepare catalog job classpath inputDigest true target) b
      (fun found _ => found ≠ none) (fun _ _ => True) := by
  rw [prepare]
  refine (ends_resolveTable catalog _ b).mono (fun _ _ _ => trivial) (fun _ _ _ => trivial)
    |>.bind fun table b₁ _ => ?_
  dsimp only
  rw [if_pos rfl, pure_bind, if_neg Bool.false_ne_true]
  refine (ends_report _ _ b₁).bind fun _ b₂ _ => ?_
  refine (ends_discardOutput target.output b₂).bind fun _ b₃ _ => ?_
  refine (ends_createParent target.output b₃).mono (fun _ _ _ => trivial) (fun _ _ _ => trivial)
    |>.bind fun _ b₄ _ => ?_
  exact ends_pure (Option.some_ne_none _)

theorem ends_answer_requests (job : Job) (inputDigest : String) (target : Target)
    (request : Request) (b : Bench Request) :
    Ends (r.answer job inputDigest target request) b
      (fun _ b' => b'.requests = b.requests ++ [request]) (fun _ _ => True) := by
  rw [answer]
  refine (ends_runTool r _ request b).mono (fun _ _ h => h) (fun _ _ _ => trivial)
    |>.bind fun _ b₁ hb₁ => ?_
  refine (ends_saveSidecar target.output _ b₁).mono (fun _ _ h => h) (fun _ _ _ => trivial)
    |>.bind fun _ b₂ hb₂ => ends_pure ?_
  rw [hb₂.2, hb₁.1]
  rfl

/-- A request that was prepared is answered by a call of the tool. -/
theorem ends_answer_prepared {r : Remapper} {job : Job} {classpath : List Path}
    {inputDigest : String} {target : Target} {layers : List Layer} {request : Request}
    {b b₁ : Bench Request}
    (h : r.Prepared job classpath inputDigest target layers b (some request) b₁) :
    Ends (r.answer job inputDigest target request) b₁
      (fun outcome b' => ∃ call,
        r.Traced job classpath inputDigest target layers b (outcome, some call) b'
          ∧ b'.requests = b.requests ++ [call.request])
      (fun _ b' => r.Interrupted target b b') := by
  obtain ⟨hrests, rfl⟩ := h
  have hfound : b₁.files = prepared b.files target.output := hrests.files
  have hanswer := ends_answer job inputDigest target
    ⟨r, r.request job target.output layers classpath, prepared b.files target.output⟩ hfound
  refine (hanswer.and (ends_answer_requests r job inputDigest target _ b₁)).mono
    (fun outcome b₂ hb₂ => ?_) fun e b₂ hb₂ => ?_
  · obtain ⟨⟨houtcome, hresult, hfile, -, hsaved, hfiles⟩, hrequests⟩ := hb₂
    rw [stamped, show b₁.now = b.now from hrests.now] at hsaved hfiles
    rw [show b₁.requests = b.requests from hrests.requests] at hrequests
    exact ⟨_, ⟨houtcome, rfl, rfl, rfl, hresult, hfile, hsaved, hfiles⟩, hrequests⟩
  · exact .inr (.inr ⟨_, rfl, rfl, rfl, hb₂.1.2⟩)

theorem ends_prepare_interrupted (job : Job) (classpath : List Path) (inputDigest : String)
    (force : Bool) (target : Target) (b : Bench Request) :
    Ends (r.prepare catalog job classpath inputDigest force target) b
      (fun found b' => ∃ layers, r.Prepared job classpath inputDigest target layers b found b')
      (fun _ b' => r.Interrupted target b b') := by
  refine (ends_prepare r catalog job classpath inputDigest force target b).mono
    (fun _ _ h => ⟨h.choose, h.choose_spec.1⟩) fun e b' h => ?_
  obtain ⟨-, t, ht | ht, hrests⟩ := h
  · exact .inl (hrests.files.trans ht)
  · exact .inr (.inl (hrests.files.trans ht))

/-- A target that may not be taken again is made by a call of the tool. -/
theorem ends_makeTarget_forced (job : Job) (classpath : List Path) (inputDigest : String)
    (target : Target) (b : Bench Request) :
    Ends (r.makeTarget catalog job classpath inputDigest true target) b
      (fun outcome b' => ∃ layers call,
        r.Traced job classpath inputDigest target layers b (outcome, some call) b'
          ∧ b'.requests = b.requests ++ [call.request])
      (fun _ b' => r.Interrupted target b b') := by
  rw [makeTarget_eq]
  refine ((ends_prepare_interrupted r catalog job classpath inputDigest true target b).and
    (ends_prepare_forced r catalog job classpath inputDigest target b)).mono (fun _ _ h => h)
    (fun _ _ h => h.1) |>.bind fun found b₁ hb₁ => ?_
  obtain ⟨⟨layers, hprepared⟩, hsome⟩ := hb₁
  cases found with
  | none => exact absurd rfl hsome
  | some request =>
      exact (ends_answer_prepared hprepared).mono (fun _ _ h => ⟨layers, h⟩) fun _ _ h => h

/-- A job with one target succeeds as the target does, and discards it if it fails. -/
theorem ends_runJob_single {job : Job} {target : Target} (htargets : job.targets = [target])
    {force : Bool} {b : Bench Request} {made : List Path → String → Outcome → Bench Request → Prop}
    (hmake : ∀ classpath inputDigest,
      Ends (r.makeTarget catalog job classpath inputDigest force target) b
        (made classpath inputDigest) fun _ b' => r.Interrupted target b b') :
    Ends (r.runJob catalog job force) b
      (fun outcomes b' => ∃ classpath bytes outcome, outcomes = [outcome]
        ∧ b.files.readBytes job.input = .ok bytes
        ∧ made classpath (Digest.fingerprint bytes) outcome b')
      (fun _ b' => b'.files = b.files
        ∨ ∃ c, r.Interrupted target b c ∧ b'.files = discarding c.files target.output) := by
  rw [runJob]
  refine ends_get_bind ?_
  dsimp only
  cases job.targets.find? fun target => b.files.samePlace job.input target.output with
  | some refused => exact ends_throw (.inl rfl)
  | none =>
      have hproduce : Ends (r.produce catalog job force) b
          (fun outcomes b' => ∃ classpath bytes outcome, outcomes = [outcome]
            ∧ b.files.readBytes job.input = .ok bytes
            ∧ made classpath (Digest.fingerprint bytes) outcome b')
          (fun _ b' => r.Interrupted target b b') := by
        rw [produce_eq]
        refine (ends_setUp job b).mono (fun _ _ h => h) (fun _ _ h => .inl (h.1 ▸ rfl))
          |>.bind fun found b₁ hb₁ => ?_
        obtain ⟨rfl, bytes, hbytes, hdigest⟩ := hb₁
        rw [htargets, hdigest]
        refine (hmake found.1 _).bind fun outcome b₂ hb₂ => ends_pure ?_
        exact ⟨found.1, bytes, outcome, rfl, hbytes, hb₂⟩
      refine (hproduce.orElseDo (F := fun _ b' => ∃ c, r.Interrupted target b c
        ∧ b'.files = discarding c.files target.output) fun e c hc => ?_).mono (fun _ _ h => h)
        fun _ _ h => .inr h
      obtain ⟨b₁, hrun, hfiles, -⟩ := run_cleanUp job c e
      refine ⟨?_⟩
      rw [cleanUp] at hrun
      rw [hrun]
      refine ⟨c, hc, ?_⟩
      rw [hfiles, htargets]
      rfl

/-- The job that makes an archive anew from its dev path. -/
def devJob (archive dev : Path) (direction : Direction) (classpath : List Path) : Job :=
  { input := dev
    source := direction.source
    targets := [{ label := direction.dest, output := archive }]
    classpath }

/-- What is left when a run in place has failed: nothing has changed, or only the older file at
    the dev path is gone, or the archive was moved, the job failed, and the archive was moved
    back, if it could be. -/
def Failed (archive dev : Path) (direction : Direction) (b b' : Bench Request) : Prop :=
  b'.files = b.files ∨ b.files.isFile archive = true
    ∧ (b.files.removeFile dev = .ok b'.files
      ∨ ∃ m : Bench Request, SourceRemapper.movedAside b.files archive dev = .ok m.files
        ∧ ∃ u, (u = m.files ∨ ∃ c, r.Interrupted ⟨direction.dest, archive⟩ m c
            ∧ u = discarding c.files archive)
          ∧ b'.files = movedBack u archive dev)

/-- What a run in place that succeeds has done: it has moved the archive, and made it anew by a
    call of the tool. -/
def Completed (archive dev : Path) (direction : Direction) (b : Bench Request) (outcome : Outcome)
    (b' : Bench Request) : Prop :=
  b.files.isFile archive = true
    ∧ ∃ m : Bench Request, SourceRemapper.movedAside b.files archive dev = .ok m.files
      ∧ ∃ classpath classpath' bytes layers call, m.files.readBytes dev = .ok bytes
        ∧ r.Traced (devJob archive dev direction classpath) classpath' (Digest.fingerprint bytes)
          ⟨direction.dest, archive⟩ layers m (outcome, some call) b'
        ∧ b'.requests = b.requests ++ [call.request]

/-- **All that a run in place can do.** -/
theorem ends_remapInPlace (archive : Path) (direction : Direction) (classpath : List Path)
    (b : Bench Request) :
    Ends (r.remapInPlace catalog archive direction classpath) b
      (fun outcome b' =>
        r.Completed archive (devPath archive r.settings.devSuffix) direction b outcome b')
      (fun _ b' => r.Failed archive (devPath archive r.settings.devSuffix) direction b b') := by
  rw [remapInPlace]
  generalize devPath archive r.settings.devSuffix = dev
  refine ends_get_bind ?_
  by_cases hfile : b.files.isFile archive = true
  · rw [if_neg (by simp [hfile])]
    refine (ends_moveAside archive dev b).mono (fun _ _ h => h) (fun e b' h => ?_)
      |>.bind fun _ m hm => ?_
    · rcases h with hsame | hremoved
      · exact .inl hsame
      · exact .inr ⟨hfile, .inl hremoved⟩
    obtain ⟨moved, hmoved, hrests⟩ := hm
    rw [← show m.files = moved from hrests.files] at hmoved
    have hrequests : m.requests = b.requests := hrests.requests
    have hjob : (devJob archive dev direction classpath).targets
        = [⟨direction.dest, archive⟩] := rfl
    have hrun := ends_runJob_single r catalog hjob fun classpath' inputDigest =>
      ends_makeTarget_forced r catalog (devJob archive dev direction classpath) classpath'
        inputDigest ⟨direction.dest, archive⟩ m
    refine (hrun.orElseDo
      (F := fun _ b' => r.Failed archive dev direction b b') fun e u hu => ?_).bind
      fun outcomes b' hb' => ?_
    · refine (ends_moveBack archive dev u).mono (fun _ b' hb' => ?_) fun _ _ h => h
      refine .inr ⟨hfile, .inr ⟨m, hmoved, u.files, hu, hb'⟩⟩
    · obtain ⟨classpath', bytes, outcome, rfl, hbytes, layers, call, htraced, hcalls⟩ := hb'
      rw [hrequests] at hcalls
      exact ends_pure ⟨hfile, m, hmoved, classpath, classpath', bytes, layers, call, hbytes,
        htraced, hcalls⟩
  · rw [if_pos (by simp [hfile])]
    exact ends_throw (.inl rfl)

end Remapper

-- ── Moved aside ──────────────────────────────────────────────────────────────

/-- What moving an archive aside has done to a plain tree. -/
structure Aside (t m : FileTree) (archive dev : Path) (content : Content) : Prop where
  keeping : t.Keeping m
  tests : ∃ u, FileTree.Renames u archive dev archive.place dev.place (.file content)
  source : m.entryAt archive = .ok archive.place
  dest : m.entryAt dev = .ok dev.place
  at? : ∀ loc, m.at? loc = if loc = dev.place then some (.file content)
    else if loc = archive.place then none else t.at? loc

section Plain

variable {t : FileTree} (h : t.Plain) {archive dev : Path} {content : Content}
  (hstat : t.stat archive = .ok (.file content)) (hbeside : Beside archive dev)
include h hstat hbeside

theorem aside_of_movedAside {m : FileTree} (hm : SourceRemapper.movedAside t archive dev = .ok m) :
    Aside t m archive dev content := by
  obtain ⟨u, hu, hrename⟩ := Outcome.bind_eq_ok.1 hm
  have hne := hbeside.place_ne
  have hless : t.Keeping u ∧ ∀ loc, loc ≠ dev.place → u.at? loc = t.at? loc := by
    by_cases hfound : t.pathExists dev = true
    · rw [if_pos hfound] at hu
      obtain ⟨hkeeping, hat⟩ := h.removeFile hu
      exact ⟨hkeeping, fun loc hloc => by rw [hat, if_neg hloc]⟩
    · rw [if_neg hfound] at hu
      obtain rfl := Except.ok.inj hu
      exact ⟨h.keeping, fun _ _ => rfl⟩
  obtain ⟨name, hname⟩ := FileTree.namesFile_of_stat hstat
  obtain ⟨other, hother⟩ := hbeside.file
  have hsource := FileTree.endsInSlash_of_getLast? hname
  have hdest := FileTree.endsInSlash_of_getLast? hother
  have hfile : u.at? archive.place = some (.file content) :=
    (hless.2 _ hne).trans (h.stat_file hstat).2
  obtain ⟨hkeeping, hat⟩ := hless.1.plain.rename hsource hdest hne hfile hrename
  obtain ⟨src, dst, node, htests, -⟩ := FileTree.rename_inv hrename
  have hsrc := htests.sourceAt
  have hdst := htests.destAt
  obtain rfl := (hless.1.plain.entryAt_eq_ok hsrc).2 hsource
  obtain rfl := (hless.1.plain.entryAt_eq_ok hdst).2 hdest
  obtain rfl : node = .file content :=
    Option.some.inj ((FileTree.lookUp_eq_ok htests.found).symm.trans hfile)
  refine ⟨hless.1.trans hkeeping, ⟨u, htests⟩, hless.1.plain.entryAt_keeps hkeeping hsrc,
    hless.1.plain.entryAt_keeps hkeeping hdst, fun loc => ?_⟩
  rw [hat]
  by_cases hloc : loc = dev.place
  · rw [if_pos hloc, if_pos hloc]
  · rw [if_neg hloc, if_neg hloc, hless.2 loc hloc]

end Plain

-- ── Saving ───────────────────────────────────────────────────────────────────

/-- The temporary file of a sidecar can be written: its path can be walked and looked up. -/
structure Sidecar.Writable (output : Path) : Prop where
  text : FileTree.checkText (temporaryPathOf output) = .ok ()
  name : ∃ (t : FileTree) (node : Option Node), t.lookUp (temporaryPathOf output).place = .ok node

/-- Saving a sidecar in a plain tree changes nothing, or writes the temporary file, or puts it
    in place. -/
theorem Sidecar.save_at? {t : FileTree} (h : t.Plain) {output : Path} (hname : output.NamesFile)
    (s : Sidecar) :
    (save t output s).2 = t
      ∨ Writable output
        ∧ ((∀ loc, (save t output s).2.at? loc
              = if loc = (temporaryPathOf output).place then some (.file s.file) else t.at? loc)
          ∨ ∀ loc, (save t output s).2.at? loc = if loc = (pathOf output).place
              then some (.file s.file)
              else if loc = (temporaryPathOf output).place then none else t.at? loc) := by
  rcases save_cases t output s with hsame | ⟨mid, hwrite, hmid⟩
  · exact .inl hsame
  obtain ⟨hkeeping, hat⟩ := h.write hwrite
  have hfile : mid.at? (temporaryPathOf output).place = some (.file s.file) := by
    rw [hat, if_pos rfl]
    rfl
  have hwritable : Writable output := by
    obtain ⟨loc, hplace, -, -⟩ := FileTree.write_eq_ok hwrite
    obtain ⟨_, htext, -⟩ := Outcome.bind_eq_ok.1 hplace
    have hleads := h.resolve_target hplace FileTree.Ending.noConfusion
    rw [(h.resolve_eq_ok hplace).1] at hleads
    have hstat := FileTree.stat_of_resolve
      (h.resolve_keeps hkeeping.plain hkeeping.dirs hleads) hfile
    obtain ⟨entry, there, hentry, hlook, -, -⟩ := FileTree.entry_of_stat hstat
    rw [(hkeeping.plain.entryAt_eq_ok hentry).2 (endsInSlash_temporaryPathOf output)] at hlook
    exact ⟨htext, mid, _, hlook⟩
  refine .inr ⟨hwritable, ?_⟩
  rcases hmid with hsame | hrename
  · refine .inl fun loc => ?_
    rw [hsame, hat]
    rfl
  · obtain ⟨-, hat'⟩ := hkeeping.plain.rename (endsInSlash_temporaryPathOf output)
      (endsInSlash_pathOf output) (place_temporary_ne hname hname) hfile hrename
    refine .inr fun loc => ?_
    rw [hat', hat]
    by_cases htemporary : loc = (temporaryPathOf output).place
    · rw [if_pos htemporary, if_pos htemporary]
    · rw [if_neg htemporary, if_neg htemporary, if_neg htemporary]

/-- Where its temporary file can be written, the sidecar can be read and removed. -/
theorem Sidecar.Writable.isFile {output : Path} (h : Writable output) {t : FileTree}
    (hplain : t.Plain) (hname : output.NamesFile) {loc : Location}
    (hleads : t.resolve .target output = .ok loc) {record : Content}
    (hat : t.at? (pathOf output).place = some (.file record)) :
    t.isFile (pathOf output) = true := by
  have hcheck : FileTree.checkText (pathOf output) = .ok () := by
    have htext := h.text
    rw [temporaryPathOf_eq, Path.append, show ".remap.json.tmp" = ".remap.json" ++ ".tmp" from rfl,
      ← String.append_assoc] at htext
    exact FileTree.checkText_of_append
      (fun hempty => absurd (String.append_eq_empty_iff.1 hempty).2 (by decide)) htext
  have hlook : t.lookUp (pathOf output).place = .ok (some (.file record)) := by
    obtain ⟨dir, name, -, hsidecar, htemporary⟩ := places hname
    obtain ⟨u, node, hlook⟩ := h.name
    rw [htemporary, FileTree.lookUp, List.getLast?_concat] at hlook
    have hlong : ¬ FileTree.isTooLong (name ++ ".remap.json") = true := by
      intro hlong
      have hlonger : FileTree.isTooLong (name ++ ".remap.json.tmp") = true := by
        rw [FileTree.isTooLong, decide_eq_true_eq, Name.length_ofText, String.utf8ByteSize_append]
          at hlong ⊢
        have hsizes : ".remap.json".utf8ByteSize ≤ ".remap.json.tmp".utf8ByteSize := by decide
        omega
      dsimp only at hlook
      rw [if_pos hlonger] at hlook
      cases hlook
    rw [hsidecar] at hat ⊢
    rw [FileTree.lookUp, List.getLast?_concat]
    dsimp only
    rw [if_neg hlong, hat]
  have hentry : t.entryAt (pathOf output) = .ok (pathOf output).place :=
    hplain.entryAt_append hname hleads (by decide) hcheck
  rw [FileTree.isFile, hplain.stat_of_entryAt hentry (endsInSlash_pathOf output) hlook]

-- ── What a failed job leaves ─────────────────────────────────────────────────

theorem prepared_eq_discarding {t : FileTree} (h : t.Plain) {output : Path}
    (hname : output.NamesFile) {loc : Location} (hleads : t.resolve .target output = .ok loc) :
    Remapper.prepared t output = discarding t output := by
  have hkeeping := (discarding_plain h output).1
  obtain ⟨parent, hparent, hcreate⟩ := hkeeping.plain.createDirAll_parent hname
    (h.resolve_keeps hkeeping.plain hkeeping.dirs hleads)
  rw [Remapper.prepared, withParent, hparent]
  exact congrArg Prod.snd hcreate

/-- What a job that fails may have changed before it cleans up: no directory is new but at the
    output, and nothing has changed but there and at the places of the sidecar and its
    temporary file.  If that can be written then the sidecar can be removed, and otherwise
    nothing is new at these two places. -/
structure Midway (t u : FileTree) (output : Path) : Prop where
  keeping : t.Keeping u
  elsewhere : ∀ loc, loc ≠ output.place → loc ≠ (Sidecar.pathOf output).place →
    loc ≠ (Sidecar.temporaryPathOf output).place → u.at? loc = t.at? loc
  dirs : ∀ loc, loc ≠ output.place → u.at? loc = some .dir → t.at? loc = some .dir
  beside : Sidecar.Writable output
    ∨ u.at? (Sidecar.temporaryPathOf output).place = t.at? (Sidecar.temporaryPathOf output).place
      ∧ ∀ record, u.at? (Sidecar.pathOf output).place = some (.file record) →
        t.at? (Sidecar.pathOf output).place = some (.file record)

section Midway

variable {t : FileTree} {output : Path} (hname : output.NamesFile)
include hname

theorem midway_discarding (h : t.Plain) : Midway t (discarding t output) output := by
  obtain ⟨hkeeping, hat⟩ := discarding_plain h output
  have hsheds := sheds_discarding t output
  refine ⟨hkeeping, fun loc hplace hsidecar _ => hat loc hplace hsidecar,
    fun loc _ hdir => hsheds loc _ hdir, .inr ⟨?_, fun record hrecord => hsheds _ _ hrecord⟩⟩
  exact hat _ (OffSidecar.self hname).temporary.symm (Sidecar.place_temporary_ne hname hname)

theorem Midway.trans_left {call : Call} (htool : call.remapper.tool.WritesOnlyOutput)
    (houtput : call.request.output = output) (hmid : Midway t call.found output) :
    Midway t call.left output := by
  have hplain := hmid.keeping.plain
  have hleft : ∀ loc, loc ≠ output.place → call.left.at? loc = call.found.at? loc :=
    fun loc hloc => Call.at?_left htool hplain (by rwa [houtput])
  have hoff := OffSidecar.self hname
  refine ⟨hmid.keeping.trans (Call.keeping htool hplain), fun loc hplace hsidecar htemporary => ?_,
    fun loc hplace hdir => ?_, ?_⟩
  · rw [hleft loc hplace]
    exact hmid.elsewhere loc hplace hsidecar htemporary
  · rw [hleft loc hplace] at hdir
    exact hmid.dirs loc hplace hdir
  · rw [hleft _ hoff.sidecar.symm, hleft _ hoff.temporary.symm]
    exact hmid.beside

theorem Midway.save {u : FileTree} (hmid : Midway t u output) (s : Sidecar) :
    Midway t (Sidecar.save u output s).2 output := by
  have hsaved := Sidecar.saved_save hmid.keeping.plain hname s
  refine ⟨hmid.keeping.trans hsaved.keeping, fun loc hplace hsidecar htemporary => ?_,
    fun loc hplace hdir => hmid.dirs loc hplace ?_, ?_⟩
  · rw [hsaved.elsewhere loc htemporary hsidecar]
    exact hmid.elsewhere loc hplace hsidecar htemporary
  · rcases Sidecar.save_at? hmid.keeping.plain hname s with hsame | ⟨-, hat | hat⟩
    · rw [hsame] at hdir
      exact hdir
    · rw [hat] at hdir
      split at hdir
      · cases hdir
      · exact hdir
    · rw [hat] at hdir
      split at hdir
      · cases hdir
      · split at hdir
        · cases hdir
        · exact hdir
  · rcases Sidecar.save_at? hmid.keeping.plain hname s with hsame | ⟨hwritable, -⟩
    · rw [hsame]
      exact hmid.beside
    · exact .inl hwritable

end Midway

namespace Remapper

variable {r : Remapper} (htool : r.tool.WritesOnlyOutput) (target : Target)
  {m c : Bench Request} (hplain : m.files.Plain)
  (hname : target.output.NamesFile)
  (hleads : m.files.resolve .target target.output = .ok target.output.place)
include htool hplain hname hleads

theorem Interrupted.midway (h : r.Interrupted target m c) :
    Midway m.files c.files target.output := by
  have hdiscarding := midway_discarding hname hplain
  rw [← prepared_eq_discarding hplain hname hleads] at hdiscarding
  rcases h with hsame | hsame | ⟨call, rfl, houtput, hfound, hstage⟩
  · rw [hsame]
    exact ⟨hplain.keeping, fun _ _ _ _ => rfl, fun _ _ hdir => hdir,
      .inr ⟨rfl, fun _ hrecord => hrecord⟩⟩
  · rw [hsame]
    exact hdiscarding
  · rw [← hfound] at hdiscarding
    have hleft := hdiscarding.trans_left hname htool houtput
    rcases hstage with hfiles | ⟨-, s, hfiles⟩
    · rw [hfiles]
      exact hleft
    · rw [hfiles]
      exact hleft.save hname s

theorem Traced.midway {job : Job} {classpath : List Path} {inputDigest : String}
    {layers : List Layer} {outcome : Outcome} {call : Call}
    (h : r.Traced job classpath inputDigest target layers m (outcome, some call) c) :
    Midway m.files c.files target.output := by
  obtain ⟨-, rfl, hrequest, hfound, -, hfile, -, hfiles⟩ := h
  have houtput : call.request.output = target.output := by rw [hrequest]; rfl
  exact Interrupted.midway htool target hplain hname hleads
    (.inr (.inr ⟨call, rfl, houtput, hfound, .inr ⟨hfile, _, hfiles⟩⟩))

end Remapper

/-- What is left of a job that failed, after it has cleaned up: the output is no file, and a
    sidecar that is still there was there before, as was its temporary file. -/
structure Unwound (t u : FileTree) (output : Path) : Prop where
  keeping : t.Keeping u
  noFile : ∀ content, u.at? output.place ≠ some (.file content)
  elsewhere : ∀ loc, loc ≠ output.place → loc ≠ (Sidecar.pathOf output).place →
    loc ≠ (Sidecar.temporaryPathOf output).place → u.at? loc = t.at? loc
  dirs : ∀ loc, loc ≠ output.place → u.at? loc = some .dir → t.at? loc = some .dir
  beside : ∀ record, u.at? (Sidecar.pathOf output).place = some (.file record) →
    t.at? (Sidecar.pathOf output).place = some (.file record)
      ∧ u.at? (Sidecar.temporaryPathOf output).place
        = t.at? (Sidecar.temporaryPathOf output).place

/-- Cleaning up removes the output and what can be removed beside it. -/
theorem Midway.unwound {t u : FileTree} (h : t.Plain) {output : Path} (hname : output.NamesFile)
    (hleads : t.resolve .target output = .ok output.place) (hmid : Midway t u output) :
    Unwound t (discarding u output) output := by
  obtain ⟨hkeeping, hat⟩ := discarding_plain hmid.keeping.plain output
  have hsheds := sheds_discarding u output
  have hall := hmid.keeping.trans hkeeping
  have hleads' := h.resolve_keeps hall.plain hall.dirs hleads
  have hgone := gone_discarding u output
  refine ⟨hall, fun content hcontent => ?_, fun loc hplace hsidecar htemporary => ?_,
    fun loc hplace hdir => hmid.dirs loc hplace (hsheds _ _ hdir), fun record hrecord => ?_⟩
  · have hfile := FileTree.isFile_of_resolve hleads' hcontent
    rw [hgone.1] at hfile
    cases hfile
  · rw [hat loc hplace hsidecar]
    exact hmid.elsewhere loc hplace hsidecar htemporary
  · rcases hmid.beside with hwritable | ⟨htemporary, hsidecar⟩
    · have hfile := hwritable.isFile hall.plain hname hleads' hrecord
      rw [hgone.2] at hfile
      cases hfile
    · refine ⟨hsidecar record (hsheds _ _ hrecord), ?_⟩
      rw [hat _ (OffSidecar.self hname).temporary.symm (Sidecar.place_temporary_ne hname hname)]
      exact htemporary

-- ── Completed or restored ────────────────────────────────────────────────────

/-- A tool that writes a file makes no directory. -/
theorem Call.no_dir {call : Call} (htool : call.remapper.tool.WritesFile)
    (hplain : call.found.Plain) {loc : Location} (h : call.found.at? loc ≠ some .dir) :
    call.left.at? loc ≠ some .dir := by
  rcases htool call.request call.found hplain with hsame | ⟨content, hwrite⟩
  · rw [Call.left, hsame]
    exact h
  · rw [Call.left, (hplain.write hwrite).2]
    split
    · exact fun hdir => nomatch hdir
    · exact h

section Restored

variable {r : Remapper} (htool : r.tool.WritesFile) (target : Target) {m c : Bench Request}
  (hplain : m.files.Plain) (hname : target.output.NamesFile)
  (hleads : m.files.resolve .target target.output = .ok target.output.place)
include htool hplain hname hleads

/-- A job with such a tool makes no directory at its output. -/
theorem Remapper.Interrupted.no_dir (h : r.Interrupted target m c)
    (hfree : m.files.at? target.output.place ≠ some .dir) :
    c.files.at? target.output.place ≠ some .dir := by
  have hsheds := sheds_discarding m.files target.output
  have hdiscarding := midway_discarding hname hplain
  rw [← prepared_eq_discarding hplain hname hleads] at hsheds hdiscarding
  have hprepared : (prepared m.files target.output).at? target.output.place ≠ some .dir :=
    fun hdir => hfree (hsheds _ _ hdir)
  rcases h with hsame | hsame | ⟨call, rfl, houtput, hfound, hstage⟩
  · rw [hsame]
    exact hfree
  · rw [hsame]
    exact hprepared
  · rw [← hfound] at hprepared hdiscarding
    have hleft := Call.no_dir htool hdiscarding.keeping.plain hprepared
    rcases hstage with hfiles | ⟨-, s, hfiles⟩
    · rw [hfiles]
      exact hleft
    · have hmid := hdiscarding.trans_left hname htool.writesOnlyOutput houtput
      have hoff := OffSidecar.self hname
      rw [hfiles, (Sidecar.saved_save hmid.keeping.plain hname s).elsewhere _ hoff.temporary
        hoff.sidecar]
      exact hleft

end Restored

/-- An archive that was moved aside is moved back, as long as it is at the dev path and no
    directory is in the way. -/
theorem Aside.back {t m u : FileTree} {archive dev : Path} {content : Content} (h : t.Plain)
    (hstat : t.stat archive = .ok (.file content)) (hbeside : Beside archive dev)
    (haside : Aside t m archive dev content) (hkeeping : m.Keeping u)
    (hthere : u.at? dev.place = some (.file content)) (hfree : u.at? archive.place ≠ some .dir) :
    (movedBack u archive dev).stat archive = .ok (.file content) := by
  have hne := hbeside.place_ne
  obtain ⟨w, htests⟩ := haside.tests
  have hback := FileTree.rename_back htests hne Node.noConfusion
    (haside.keeping.plain.entryAt_keeps hkeeping haside.source)
    (haside.keeping.plain.entryAt_keeps hkeeping haside.dest) hthere hfree
  obtain ⟨name, hname⟩ := FileTree.namesFile_of_stat hstat
  obtain ⟨other, hother⟩ := hbeside.file
  obtain ⟨hkeeping', hat⟩ := hkeeping.plain.rename (FileTree.endsInSlash_of_getLast? hother)
    (FileTree.endsInSlash_of_getLast? hname) hne.symm hthere hback
  have hall := (haside.keeping.trans hkeeping).trans hkeeping'
  rw [movedBack, hback]
  refine FileTree.stat_of_resolve (h.resolve_keeps hall.plain hall.dirs (h.stat_file hstat).1) ?_
  rw [hat, if_pos rfl]

/-- A dev path that is neither the sidecar of the archive nor its temporary file is off them. -/
theorem offSidecar_devPath {archive : Path} {kept dropped : List String} {name : String}
    (hcut : archive.Cut kept dropped name) {settings : Settings}
    (hvalid : settings.validate = .ok ())
    (hsidecar : (devPath archive settings.devSuffix).sameAs (Sidecar.pathOf archive) = false)
    (htemporary : (devPath archive settings.devSuffix).sameAs (Sidecar.temporaryPathOf archive)
      = false) :
    OffSidecar (devPath archive settings.devSuffix) archive := by
  refine ⟨fun hplace => ?_, fun hplace => ?_⟩
  · rw [Sidecar.pathOf] at hsidecar hplace
    rw [sameAs_of_place hcut hvalid (by decide) hplace] at hsidecar
    cases hsidecar
  · rw [Sidecar.temporaryPathOf_eq] at htemporary hplace
    rw [sameAs_of_place hcut hvalid (by decide) hplace] at htemporary
    cases htemporary

namespace Remapper

section Archive

variable {r : Remapper} (htool : r.tool.WritesFile) {archive dev : Path} {direction : Direction}
  {b b' : Bench Request} (hplain : b.files.Plain) {content : Content}
  (hstat : b.files.stat archive = .ok (.file content)) (hbeside : Beside archive dev)
  (hoff : OffSidecar dev archive)
include htool hplain hstat hbeside hoff

/-- A run in place that fails leaves the archive as it was. -/
theorem Failed.restored (h : r.Failed archive dev direction b b') :
    b'.files.stat archive = .ok (.file content) := by
  obtain ⟨hleads, hthere⟩ := hplain.stat_file hstat
  have hne := hbeside.place_ne
  rcases h with hsame | ⟨-, hremoved | ⟨m, hmoved, u, hu, hfiles⟩⟩
  · rw [hsame]
    exact hstat
  · obtain ⟨hkeeping, hat⟩ := hplain.removeFile hremoved
    refine FileTree.stat_of_resolve
      (hplain.resolve_keeps hkeeping.plain hkeeping.dirs hleads) ?_
    rw [hat, if_neg hne]
    exact hthere
  · have haside := aside_of_movedAside hplain hstat hbeside hmoved
    have hname := FileTree.namesFile_of_stat hstat
    have hleads' := hplain.resolve_keeps haside.keeping.plain haside.keeping.dirs hleads
    have hdev : m.files.at? dev.place = some (.file content) := by
      rw [haside.at?, if_pos rfl]
    have hfree : m.files.at? archive.place ≠ some .dir := by
      rw [haside.at?, if_neg hne, if_pos rfl]
      exact fun hdir => nomatch hdir
    rw [hfiles]
    rcases hu with rfl | ⟨c, hinterrupted, rfl⟩
    · exact haside.back hplain hstat hbeside haside.keeping.plain.keeping hdev hfree
    · have hmid := Interrupted.midway htool.writesOnlyOutput ⟨direction.dest, archive⟩
        haside.keeping.plain hname hleads' hinterrupted
      have hunwound := hmid.unwound haside.keeping.plain hname hleads'
      refine haside.back hplain hstat hbeside hunwound.keeping ?_ fun hdir => ?_
      · rw [hunwound.elsewhere _ hne.symm hoff.sidecar hoff.temporary]
        exact hdev
      · exact Interrupted.no_dir htool ⟨direction.dest, archive⟩ haside.keeping.plain hname hleads'
          hinterrupted hfree (sheds_discarding c.files archive _ _ hdir)

/-- A run in place that succeeds leaves the old archive at the dev path, and what the tool
    wrote at the archive. -/
theorem Completed.finished {outcome : Outcome}
    (h : r.Completed archive dev direction b outcome b') :
    outcome = { label := direction.dest, output := archive, cached := false }
      ∧ b'.files.stat dev = .ok (.file content)
      ∧ ∃ written, ∃ call : Call, call.remapper = r ∧ call.request.input = dev
        ∧ call.request.output = archive ∧ b'.requests = b.requests ++ [call.request]
        ∧ call.result = .ok () ∧ call.found.write archive written = .ok call.left
        ∧ b'.files.stat archive = .ok (.file written) := by
  obtain ⟨-, m, hmoved, classpath, classpath', bytes, layers, call, -, htraced, hrequests⟩ := h
  have haside := aside_of_movedAside hplain hstat hbeside hmoved
  have hname := FileTree.namesFile_of_stat hstat
  have hne := hbeside.place_ne
  have hleads := hplain.resolve_keeps haside.keeping.plain haside.keeping.dirs
    (hplain.stat_file hstat).1
  have hmid := Traced.midway htool.writesOnlyOutput ⟨direction.dest, archive⟩ haside.keeping.plain
    hname hleads htraced
  obtain ⟨htool', houtput, hprepared, hfile, hfiles, -⟩ :=
    Traced.answered htool.writesOnlyOutput haside.keeping.plain htraced
  obtain ⟨houtcome, hremapper, hrequest, hfound, hresult, -, -, -⟩ := htraced
  dsimp only at houtput hfound hname hleads
  refine ⟨houtcome, ?_, ?_⟩
  · -- the dev path is looked up as it was when the archive was moved there
    obtain ⟨_, htests⟩ := haside.tests
    obtain ⟨_, hlook⟩ := htests.there
    have hat : b'.files.at? dev.place = some (.file content) := by
      rw [hmid.elsewhere _ hne.symm hoff.sidecar hoff.temporary, haside.at?, if_pos rfl]
    obtain ⟨other, hother⟩ := hbeside.file
    exact hmid.keeping.plain.stat_of_entryAt
      (haside.keeping.plain.entryAt_keeps hmid.keeping haside.dest)
      (FileTree.endsInSlash_of_getLast? hother)
      ((FileTree.lookUp_of_lookUp hlook).trans (congrArg _ hat))
  · have hnone : ∀ node, call.found.at? archive.place ≠ some node := by
      intro node hat
      rw [hfound, prepared_eq_discarding haside.keeping.plain hname hleads] at hat
      have hbefore := sheds_discarding m.files archive _ _ hat
      rw [haside.at?, if_neg hne, if_pos rfl] at hbefore
      cases hbefore
    obtain ⟨written, hleft⟩ := FileTree.stat_of_isFile hfile
    have hkeeping := Call.keeping htool' hprepared.plain
    rw [houtput] at hleft
    obtain ⟨hthere, hat⟩ := hkeeping.plain.stat_file hleft
    have hwritten : call.found.write archive written = .ok call.left := by
      rw [← hremapper] at htool
      rcases htool call.request call.found hprepared.plain with hsame | ⟨found, hwrite⟩
      · rw [Call.left, hsame] at hat
        exact absurd hat (hnone _)
      · rw [houtput] at hwrite
        rw [Call.left, (hprepared.plain.write hwrite).2, if_pos rfl] at hat
        obtain rfl := Node.file.inj (Option.some.inj hat)
        exact hwrite
    have hsaved := Call.saved htool' hprepared.plain hfile
      (stamped (r.sidecar (Digest.fingerprint bytes) layers) m)
    have hself := OffSidecar.self hname
    refine ⟨written, call, hremapper, by rw [hrequest]; rfl, houtput, hrequests, hresult, hwritten,
      ?_⟩
    rw [hfiles]
    refine FileTree.stat_of_resolve
      (hkeeping.plain.resolve_keeps hsaved.keeping.plain hsaved.keeping.dirs hthere) ?_
    rw [houtput] at hsaved ⊢
    rw [hsaved.elsewhere _ hself.temporary hself.sidecar]
    exact hat

end Archive

end Remapper

-- ── Two archives ─────────────────────────────────────────────────────────────

/-- An archive with an older file at its dev path, and with a sidecar. -/
def twoArchives : Bench Request :=
  .ofNodes [(["d"], .dir), (["d", "mod.jar"], .file (.raw [1])),
    (["d", "mod-dev.jar"], .file (.raw [2])), (["d", "mod.jar.remap.json"], .file (.raw [3]))]

theorem twoArchives_plain : twoArchives.files.Plain :=
  FileTree.plain_of_nodes (by decide +kernel)

/-- The archive of `twoArchives`, on a detour. -/
def archivePath : Path := ⟨"d/./mod.jar"⟩

/-- The run that remaps the archive in place. -/
def twoArchivesRun (tool : Tool) : Except Error Outcome × Bench Request :=
  (({ tool, settings := {} } : Remapper).remapInPlace twoLabels archivePath ⟨"a", "b"⟩ []).run.run
    twoArchives

theorem twoArchivesRun_labelling : (twoArchivesRun .labelling).1.isOk = true := by decide +kernel

theorem twoArchivesRun_refusing : (twoArchivesRun .refusing).1.isOk = false := by decide +kernel

end Remap

end Nomenclator
