import Nomenclator.Proofs.Files.Name
import Nomenclator.Proofs.Files.Plain
import Nomenclator.Proofs.Text.Lines

/-! # Paths with a suffix — what stands beside a file

    A text that is written directly after a path belongs to its last piece
    (`Path.pieces_append`).  So where the path ends in a name, the longer path spells
    the place beside it, with the longer name (`Path.place_append`). -/

namespace Nomenclator

namespace Text

/-- The last piece of a text, with those before it. -/
theorem exists_last_piece (sep : Char) (text : List Char) :
    ∃ init last, text = init.flatMap (· ++ [sep]) ++ last ∧
      ∀ suffix, sep ∉ suffix → pieces sep (text ++ suffix) = init ++ [last ++ suffix] := by
  induction text with
  | nil =>
      refine ⟨[], [], rfl, fun suffix hsuffix => ?_⟩
      exact pieces_of_not_mem hsuffix
  | cons c rest ih =>
      obtain ⟨init, last, hrest, hpieces⟩ := ih
      by_cases hsep : c = sep
      · refine ⟨[] :: init, last, ?_, fun suffix hsuffix => ?_⟩
        · rw [hrest, hsep]
          rfl
        · rw [List.cons_append, pieces, piecesWhere, if_pos (beq_iff_eq.2 hsep), ← pieces,
            hpieces suffix hsuffix]
          rfl
      · have hcut : ∀ {suffix piece later}, pieces sep (rest ++ suffix) = piece :: later →
            pieces sep (c :: rest ++ suffix) = (c :: piece) :: later := by
          intro suffix piece later hrest
          rw [pieces] at hrest
          rw [List.cons_append, pieces, piecesWhere, if_neg fun hbeq => hsep (beq_iff_eq.1 hbeq),
            hrest]
        cases init with
        | nil =>
            refine ⟨[], c :: last, ?_, fun suffix hsuffix => hcut (hpieces suffix hsuffix)⟩
            rw [hrest]
            rfl
        | cons piece later =>
            refine ⟨(c :: piece) :: later, last, ?_, fun suffix hsuffix =>
              hcut (hpieces suffix hsuffix)⟩
            rw [hrest]
            rfl

end Text

namespace Files

namespace Path

/-- A text may be written after a path so that it lengthens the last name: it holds no slash,
    and no name that it ends is a dot or two. -/
structure Suffix (suffix : String) : Prop where
  noSlash : '/' ∉ suffix.toList
  long : 2 < suffix.toList.length

instance (suffix : String) : Decidable (Suffix suffix) :=
  decidable_of_iff ('/' ∉ suffix.toList ∧ 2 < suffix.toList.length)
    ⟨fun h => ⟨h.1, h.2⟩, fun h => ⟨h.noSlash, h.long⟩⟩

/-- What is written after a path belongs to its last piece. -/
theorem pieces_append (p : Path) : ∃ init last, p.text.toList
      = (init.flatMap fun piece => piece.toList ++ ['/']) ++ last.toList
    ∧ p.pieces = init ++ [last]
    ∧ ∀ {suffix}, Suffix suffix → (p.append suffix).pieces = init ++ [last ++ suffix] := by
  obtain ⟨init, last, htext, hpieces⟩ := Text.exists_last_piece '/' p.text.toList
  refine ⟨init.map String.ofList, String.ofList last, ?_, ?_, fun {suffix} hsuffix => ?_⟩
  · rw [List.flatMap_map, String.toList_ofList, htext]
    simp only [String.toList_ofList]
  · have hown := hpieces [] List.not_mem_nil
    rw [List.append_nil, List.append_nil] at hown
    rw [pieces, hown, List.map_append]
    rfl
  · rw [pieces, append, String.toList_append, hpieces _ hsuffix.noSlash, List.map_append,
      List.map_singleton, String.ofList_append, String.ofList_toList]

theorem Suffix.ne_of_short {suffix : String} (h : Suffix suffix) (name : String) {short : String}
    (hshort : short.toList.length ≤ 2) : name ++ suffix ≠ short := by
  rintro rfl
  rw [String.toList_append, List.length_append] at hshort
  have := h.long
  omega

theorem Suffix.step {suffix : String} (h : Suffix suffix) (name : String) :
    Step.ofPiece? (name ++ suffix) = some (.down (name ++ suffix)) := by
  rw [Step.ofPiece?, if_neg (h.ne_of_short name (by decide)),
    if_neg (h.ne_of_short name (by decide)), if_neg (h.ne_of_short name (by decide))]

theorem Suffix.component {suffix : String} (h : Suffix suffix) (name : String) :
    component? (name ++ suffix) = some (.name (name ++ suffix)) := by
  rw [component?, if_neg, if_neg (h.ne_of_short name (by decide))]
  rintro (heq | heq)
  · exact h.ne_of_short name (by decide) heq
  · exact h.ne_of_short name (by decide) heq

theorem Suffix.firstComponent {suffix : String} (h : Suffix suffix) (name : String) :
    firstComponent? (name ++ suffix) = some (.name (name ++ suffix)) := by
  rw [firstComponent?, if_neg (h.ne_of_short name (by decide)), h.component]

theorem Suffix.endsInSlash {suffix : String} (h : Suffix suffix) (p : Path) :
    (p.append suffix).endsInSlash = false := by
  have hne : suffix.toList ≠ [] := by
    intro hnil
    have := h.long
    rw [hnil] at this
    exact absurd this (by decide)
  rw [Path.endsInSlash, append, String.toList_append, List.getLast?_append_of_ne_nil _ hne]
  refine beq_eq_false_iff_ne.2 fun hlast => h.noSlash ?_
  exact List.mem_of_getLast? hlast

-- ── Places ───────────────────────────────────────────────────────────────────

/-- The steps of a path with pieces and no slash at its end. -/
theorem steps_of_pieces {p : Path} (hslash : p.endsInSlash = false) {init : List String}
    {last : String} (hpieces : p.pieces = init ++ [last]) :
    p.steps = ((if p.isAbsolute then [Step.up] else []) ++ init.filterMap Step.ofPiece?)
      ++ (Step.ofPiece? last).toList := by
  have hlast : [last].filterMap Step.ofPiece? = (Step.ofPiece? last).toList := by
    cases hstep : Step.ofPiece? last <;> simp [hstep]
  rw [steps, hslash, hpieces, List.filterMap_append, hlast]
  simp only [Bool.false_eq_true, if_false, List.append_nil, List.append_assoc]

theorem eq_of_ofPiece? {piece : String} {name : Name} (h : Step.ofPiece? piece = some (.down name)) :
    name = piece := by
  rw [Step.ofPiece?] at h
  by_cases hempty : piece = ""
  · rw [if_pos hempty] at h
    cases h
  rw [if_neg hempty] at h
  by_cases hdot : piece = "."
  · rw [if_pos hdot] at h
    cases h
  rw [if_neg hdot] at h
  by_cases hdots : piece = ".."
  · rw [if_pos hdots] at h
    cases h
  rw [if_neg hdots] at h
  exact (Step.down.inj (Option.some.inj h)).symm

/-- Where a path ends in a name, its last piece is the name. -/
theorem step_of_last {p : Path} {name : Name} {last : String} {init : List String}
    (h : p.steps.getLast? = some (.down name))
    (htext : p.text.toList = (init.flatMap fun piece => piece.toList ++ ['/']) ++ last.toList)
    (hpieces : p.pieces = init ++ [last]) : Step.ofPiece? last = some (.down name) := by
  have hslash : p.endsInSlash = false := FileTree.endsInSlash_of_getLast? h
  have hsteps := steps_of_pieces hslash hpieces
  -- an empty last piece would be after a slash, or all of the path
  have hlast : last ≠ "" := by
    rintro rfl
    rcases List.eq_nil_or_concat init with rfl | ⟨front, piece, rfl⟩
    · have habsolute : p.isAbsolute = false := by
        rw [isAbsolute, htext]
        rfl
      rw [hsteps, habsolute] at h
      cases h
    · rw [Path.endsInSlash, htext, List.concat_eq_append, List.flatMap_append,
        List.flatMap_singleton, String.toList_empty, List.append_nil, ← List.append_assoc,
        List.getLast?_concat] at hslash
      cases hslash
  obtain ⟨step, hstep⟩ : ∃ step, Step.ofPiece? last = some step := by
    rw [Step.ofPiece?, if_neg hlast]
    by_cases hdot : last = "."
    · exact ⟨_, if_pos hdot⟩
    · rw [if_neg hdot]
      by_cases hdots : last = ".."
      · exact ⟨_, if_pos hdots⟩
      · exact ⟨_, if_neg hdots⟩
  rw [hstep, Option.toList_some] at hsteps
  rw [hsteps, List.getLast?_concat] at h
  obtain rfl := Option.some.inj h
  exact hstep

/-- Where a path ends in a name, the path with a suffix ends in the longer name, after the
    same steps. -/
theorem NamesFile.steps_append {p : Path} (h : p.NamesFile) : ∃ front name,
    p.steps = front ++ [.down (.ofText name)]
      ∧ ∀ {suffix}, Suffix suffix →
          (p.append suffix).steps = front ++ [.down (.ofText (name ++ suffix))] := by
  obtain ⟨name, h⟩ := h
  obtain ⟨init, last, htext, hpieces, happend⟩ := p.pieces_append
  have hstep := step_of_last h htext hpieces
  obtain rfl := eq_of_ofPiece? hstep
  have hsteps := steps_of_pieces (FileTree.endsInSlash_of_getLast? h) hpieces
  rw [hstep, Option.toList_some] at hsteps
  have hne : p.text.toList ≠ [] := by
    rw [htext]
    refine List.append_ne_nil_of_right_ne_nil _ fun hnil => ?_
    rw [String.toList_eq_nil_iff.1 hnil] at hstep
    cases hstep
  refine ⟨_, last, hsteps, fun {suffix} hsuffix => ?_⟩
  have habsolute : (p.append suffix).isAbsolute = p.isAbsolute := by
    rw [isAbsolute, append, String.toList_append, List.head?_append_of_ne_nil _ hne]
    rfl
  rw [steps_of_pieces (hsuffix.endsInSlash p) (happend hsuffix), hsuffix.step, habsolute]
  rfl

/-- **The place beside a path.** -/
theorem NamesFile.place_append {p : Path} (h : p.NamesFile) : ∃ dir name,
    p.place = dir ++ [.ofText name]
      ∧ ∀ {suffix}, Suffix suffix → (p.append suffix).place = dir ++ [.ofText (name ++ suffix)] := by
  obtain ⟨front, name, hsteps, happend⟩ := h.steps_append
  exact ⟨_, name, place_of_concat hsteps, fun hsuffix => place_of_concat (happend hsuffix)⟩

end Path

namespace FileTree

/-- Where a path leads to something, the path with a suffix names the entry beside it. -/
theorem Plain.entryAt_append {t : FileTree} (h : t.Plain) {p : Path} (hp : p.NamesFile)
    {loc : Location} (hleads : t.resolve .target p = .ok loc) {suffix : String}
    (hsuffix : Path.Suffix suffix) (hcheck : checkText (p.append suffix) = .ok ()) :
    t.entryAt (p.append suffix) = .ok (p.append suffix).place := by
  obtain ⟨front, name, hsteps, happend⟩ := hp.steps_append
  obtain ⟨_, -, hwalk⟩ := Outcome.bind_eq_ok.1 hleads
  rw [hsteps, h.walkLinks_eq_ok] at hwalk
  have hfront := (hwalk.front rfl t.dirsTo_root).2
  refine Outcome.bind_eq_ok.2 ⟨(), hcheck, Outcome.bind_eq_ok.2 ⟨(), ?_⟩⟩
  rw [trimmed_of_endsInSlash (hsuffix.endsInSlash p), h.walkLinks_eq_ok,
    Path.place_of_concat (happend hsuffix), happend hsuffix]
  exact ⟨hcheck, hfront _ _ _ Ending.noConfusion (.entry rfl)⟩

end FileTree

namespace Path

-- ── File names ───────────────────────────────────────────────────────────────

/-- The last piece of a path with a suffix counts. -/
theorem lastPiece?_append (p : Path) {init : List String} {last suffix : String}
    (hsuffix : Suffix suffix) (hpieces : (p.append suffix).pieces = init ++ [last ++ suffix]) :
    (p.append suffix).lastPiece? = some (init.length, last ++ suffix) := by
  have hcounts : counts init.length (last ++ suffix) = true := by
    rw [counts, hsuffix.component, hsuffix.firstComponent]
    exact ite_self _
  rw [lastPiece?, hpieces]
  dsimp only
  rw [List.length_append, List.length_singleton, List.range_succ, List.zip_append (by simp),
    List.filter_append]
  simp [hcounts]

theorem fileName?_append (p : Path) {init : List String} {last suffix : String}
    (hsuffix : Suffix suffix) (hpieces : (p.append suffix).pieces = init ++ [last ++ suffix]) :
    (p.append suffix).fileName? = some (last ++ suffix) := by
  rw [fileName?, lastPiece?_append p hsuffix hpieces]
  dsimp only
  rw [hsuffix.component, hsuffix.firstComponent, ite_self]

theorem splitName_append {stem extension : String} (hstem : stem ≠ "")
    (hextension : '.' ∉ extension.toList) :
    splitName (stem ++ "." ++ extension) = (stem, some extension) := by
  have hreversed : (stem ++ "." ++ extension).toList.reverse
      = extension.toList.reverse ++ '.' :: stem.toList.reverse := by
    simp [String.toList_append]
  have hafter : (extension.toList.reverse ++ '.' :: stem.toList.reverse).takeWhile (· != '.')
      = extension.toList.reverse := by
    rw [List.takeWhile_append_of_pos, List.takeWhile_cons_of_neg (by decide), List.append_nil]
    intro c hc
    refine bne_iff_ne.2 fun heq => hextension ?_
    exact heq ▸ List.mem_reverse.1 hc
  have hbefore : stem.toList.reverse.isEmpty = false := by
    rw [List.isEmpty_reverse, List.isEmpty_eq_false_iff]
    exact fun hnil => hstem (String.toList_eq_nil_iff.1 hnil)
  rw [splitName, hreversed, hafter, List.drop_left]
  dsimp only
  rw [hbefore, if_neg Bool.false_ne_true, List.reverse_reverse, List.reverse_reverse,
    String.ofList_toList, String.ofList_toList]

/-- Replacing the extension at the end of a suffix replaces it there. -/
theorem withExtension_append (p : Path) {stem extension : String} (other : String)
    (hsuffix : Suffix (stem ++ "." ++ extension)) (hstem : 1 < stem.toList.length)
    (hextension : '.' ∉ extension.toList) :
    (p.append (stem ++ "." ++ extension)).withExtension other
      = p.append (stem ++ "." ++ other) := by
  obtain ⟨init, last, htext, -, happend⟩ := p.pieces_append
  have hpieces := happend hsuffix
  have hlong : 1 < (last ++ stem).toList.length := by
    rw [String.toList_append, List.length_append]
    omega
  have hsplit : splitName (last ++ (stem ++ "." ++ extension)) = (last ++ stem, some extension) := by
    rw [← String.append_assoc, ← String.append_assoc]
    refine splitName_append (fun hempty => ?_) hextension
    rw [hempty] at hlong
    exact absurd hlong (by decide)
  have hdot : ¬ (last ++ stem = "." ∧ init.length + 1 = (init ++ [last ++ (stem ++ "." ++ extension)]).length) := by
    rintro ⟨heq, -⟩
    rw [heq] at hlong
    exact absurd hlong (by decide)
  have hfront : (String.join (init.map (· ++ "/"))).toList
      = init.flatMap fun piece => piece.toList ++ ['/'] := by
    rw [String.toList_join, List.flatMap_map]
    simp only [String.toList_append]
    rfl
  rw [withExtension, lastPiece?_append p hsuffix hpieces, fileName?_append p hsuffix hpieces]
  dsimp only
  rw [hsplit, hpieces]
  dsimp only
  rw [if_neg hdot, List.take_left]
  refine congrArg Path.mk (String.toList_inj.1 ?_)
  simp only [String.toList_append, hfront, htext, List.append_assoc]

end Path

end Files

end Nomenclator
