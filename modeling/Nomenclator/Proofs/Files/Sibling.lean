import Nomenclator.Proofs.Files.Suffix

/-! # Names beside a path — its parent, and the path with another last name

    A relative path that ends in a name is cut before that name (`Path.Cut`).  Its
    parent spells the pieces before the cut, without those at their end that do not
    count.  So the path with another last name spells the place beside it
    (`Cut.place_withFileName`), and where the path leads somewhere its parent is a
    directory already, so that creating it changes nothing
    (`Plain.createDirAll_parent`). -/

namespace Nomenclator.Files

namespace Path

theorem not_mem_of_mem_pieces {p : Path} {piece : String} (h : piece ∈ p.pieces) :
    '/' ∉ piece.toList := by
  obtain ⟨chars, hchars, rfl⟩ := List.mem_map.1 h
  rw [String.toList_ofList]
  exact Text.not_mem_of_mem_pieces hchars

/-- Pieces that are joined by slashes are the pieces of the text. -/
theorem pieces_intercalate {parts : List String} (hne : parts ≠ [])
    (h : ∀ part ∈ parts, '/' ∉ part.toList) : (mk ("/".intercalate parts)).pieces = parts := by
  have hchars : Text.pieces '/' ("/".intercalate parts).toList = parts.map String.toList := by
    induction parts with
    | nil => exact absurd rfl hne
    | cons part later ih =>
        have hpart := h part List.mem_cons_self
        cases later with
        | nil =>
            rw [String.intercalate_singleton]
            exact Text.pieces_of_not_mem hpart
        | cons next rest =>
            have hrest := ih (List.cons_ne_nil next rest)
              fun p hp => h p (List.mem_cons_of_mem _ hp)
            rw [String.intercalate_cons_cons, String.toList_append, String.toList_append,
              List.append_assoc, show "/".toList = ['/'] from rfl, List.singleton_append,
              Text.pieces_append hpart, hrest]
            rfl
  rw [pieces, hchars, List.map_map]
  exact (List.map_congr_left fun part _ => String.ofList_toList).trans (List.map_id parts)

theorem intercalate_concat {parts : List String} (hne : parts ≠ []) (last : String) :
    "/".intercalate (parts ++ [last]) = "/".intercalate parts ++ "/" ++ last := by
  induction parts with
  | nil => exact absurd rfl hne
  | cons part later ih =>
      cases later with
      | nil =>
          rw [List.singleton_append, String.intercalate_cons_cons, String.intercalate_singleton,
            String.intercalate_singleton]
      | cons next rest =>
          have hrest := ih (List.cons_ne_nil next rest)
          rw [List.cons_append, List.cons_append, String.intercalate_cons_cons,
            String.intercalate_cons_cons, ← List.cons_append, hrest]
          simp only [String.append_assoc]

theorem toList_intercalate {parts : List String} (hne : parts ≠ []) :
    ("/".intercalate parts ++ "/").toList = parts.flatMap fun part => part.toList ++ ['/'] := by
  induction parts with
  | nil => exact absurd rfl hne
  | cons part later ih =>
      cases later with
      | nil =>
          rw [String.intercalate_singleton, List.flatMap_singleton, String.toList_append]
          rfl
      | cons next rest =>
          rw [String.intercalate_cons_cons, List.flatMap_cons, ← ih (List.cons_ne_nil next rest),
            String.append_assoc, String.append_assoc, String.toList_append, String.toList_append,
            List.append_assoc]
          rfl

theorem endsInSlash_intercalate (front : List String) {last : String} (hne : last ≠ "")
    (hslash : '/' ∉ last.toList) :
    (mk ("/".intercalate (front ++ [last]))).endsInSlash = false := by
  have hlast : ∀ text : String, (mk (text ++ last)).endsInSlash = false := by
    intro text
    have hchars : last.toList ≠ [] := fun hnil => hne (String.toList_eq_nil_iff.1 hnil)
    rw [endsInSlash, String.toList_append, List.getLast?_append_of_ne_nil _ hchars]
    exact beq_eq_false_iff_ne.2 fun heq => hslash (List.mem_of_getLast? heq)
  by_cases hfront : front = []
  · rw [hfront, List.nil_append, String.intercalate_singleton, ← String.empty_append (s := last)]
    exact hlast ""
  · rw [intercalate_concat hfront]
    exact hlast _

theorem steps_of_relative {p : Path} (hrelative : p.isAbsolute = false)
    (hslash : p.endsInSlash = false) : p.steps = p.pieces.filterMap Step.ofPiece? := by
  rw [steps, hrelative, hslash]
  simp

/-- A piece that means nothing after the first. -/
def IdlePiece (piece : String) : Prop := piece = "" ∨ piece = "."

theorem IdlePiece.component {piece : String} (h : IdlePiece piece) : component? piece = none :=
  if_pos h

theorem idlePiece_of_counts {index : Nat} {piece : String} (h : counts index piece = false) :
    IdlePiece piece := by
  have hcomponent : component? piece = none → IdlePiece piece := by
    intro hnone
    by_contra hidle
    rw [component?, if_neg (show ¬ (piece = "" ∨ piece = ".") from hidle)] at hnone
    split at hnone <;> cases hnone
  rw [counts] at h
  by_cases hindex : index = 0
  · rw [if_pos hindex, firstComponent?] at h
    by_cases hdot : piece = "."
    · exact .inr hdot
    · rw [if_neg hdot] at h
      exact hcomponent (Option.isSome_eq_false_iff.1 h |> Option.isNone_iff_eq_none.1)
  · rw [if_neg hindex] at h
    exact hcomponent (Option.isSome_eq_false_iff.1 h |> Option.isNone_iff_eq_none.1)

/-- A relative path that ends in a name, cut before the name: the pieces that its parent keeps,
    and those between that mean nothing. -/
structure Cut (p : Path) (kept dropped : List String) (name : String) : Prop where
  relative : p.isAbsolute = false
  noSlash : p.endsInSlash = false
  pieces : p.pieces = (kept ++ dropped) ++ [name]
  step : Step.ofPiece? name = some (.down name)
  parent : p.parent? = some ⟨"/".intercalate kept⟩
  fileName : p.fileName? = some name
  idle : ∀ piece ∈ dropped, IdlePiece piece
  first : kept = [] → dropped = []
  last : kept.getLast? ≠ some ""
  text : kept ≠ [] → ∃ more, p.text = "/".intercalate kept ++ "/" ++ more

theorem counts_of_step {piece : String} (h : Step.ofPiece? piece = some (.down piece))
    (index : Nat) : counts index piece = true
      ∧ (if index = 0 then firstComponent? piece else component? piece) = some (.name piece) := by
  have hempty : piece ≠ "" := by
    rintro rfl
    cases h
  have hdot : piece ≠ "." := by
    rintro rfl
    exact absurd h (by decide)
  have hdots : piece ≠ ".." := by
    rintro rfl
    exact absurd h (by decide)
  have hcomponent : component? piece = some (.name piece) := by
    rw [component?, if_neg (not_or.2 ⟨hempty, hdot⟩), if_neg hdots]
  have hfirst : firstComponent? piece = some (.name piece) := by
    rw [firstComponent?, if_neg hdot, hcomponent]
  rw [counts, hcomponent, hfirst]
  exact ⟨ite_self _, ite_self _⟩

/-- The pieces that `keepPieces` keeps of all pieces, and those that it drops. -/
theorem keepPieces_append (pieces later : List String) :
    ∃ dropped, pieces = keepPieces pieces.length (pieces ++ later) ++ dropped
      ∧ (∀ piece ∈ dropped, IdlePiece piece)
      ∧ (keepPieces pieces.length (pieces ++ later) = [] → ∀ piece ∈ pieces.head?, piece = "")
      ∧ (keepPieces pieces.length (pieces ++ later)).getLast? ≠ some "" := by
  have hzip : (List.range pieces.length).zip (pieces ++ later)
      = (List.range pieces.length).zip pieces := by
    conv_lhs => rw [← List.append_nil (List.range pieces.length)]
    rw [List.zip_append (by simp)]
    simp
  rw [keepPieces, hzip]
  dsimp only
  generalize hnumbered : (List.range pieces.length).zip pieces = numbered
  have hpieces : numbered.map Prod.snd = pieces := by
    rw [← hnumbered, List.map_snd_zip (by simp)]
  generalize hidle : (fun x : Nat × String => !counts x.1 x.2) = idle
  have hsplit : numbered = (numbered.reverse.dropWhile idle).reverse
      ++ (numbered.reverse.takeWhile idle).reverse := by
    rw [← List.reverse_append, List.takeWhile_append_dropWhile, List.reverse_reverse]
  have hdropped : ∀ e ∈ (numbered.reverse.takeWhile idle).reverse, counts e.1 e.2 = false := by
    intro e he
    have htaken := List.mem_takeWhile_imp (List.mem_reverse.1 he)
    rw [← hidle] at htaken
    simpa using htaken
  refine ⟨(numbered.reverse.takeWhile idle).reverse.map Prod.snd, ?_, ?_, ?_, ?_⟩
  · rw [← List.map_append, ← hsplit, hpieces]
  · intro piece hpiece
    obtain ⟨e, he, rfl⟩ := List.mem_map.1 hpiece
    exact idlePiece_of_counts (hdropped e he)
  · intro hkept piece hhead
    -- the first piece was dropped, and there a dot counts
    rw [List.map_eq_nil_iff] at hkept
    rw [hkept, List.nil_append] at hsplit
    cases pieces with
    | nil => cases hhead
    | cons first rest =>
        obtain rfl := Option.some.inj hhead
        have hmem : (0, first) ∈ numbered := by
          rw [← hnumbered, List.length_cons, List.range_succ_eq_map]
          exact List.mem_cons_self
        have hcounts := hdropped (0, first) (hsplit ▸ hmem)
        rcases idlePiece_of_counts hcounts with hempty | rfl
        · exact hempty
        · exact absurd hcounts (by decide)
  · rw [List.getLast?_map, List.getLast?_reverse]
    cases hhead : (numbered.reverse.dropWhile idle).head? with
    | none => exact fun hlast => nomatch hlast
    | some e =>
        have hne := List.head?_dropWhile_not idle numbered.reverse
        rw [hhead] at hne
        rintro hlast
        obtain ⟨index, piece⟩ := e
        obtain rfl : piece = "" := Option.some.inj hlast
        rw [← hidle] at hne
        have hcounts : counts index "" = true := by simpa using hne
        rw [counts] at hcounts
        split at hcounts <;> exact absurd hcounts (by decide)

theorem exists_cut {p : Path} (h : p.NamesFile) (hrelative : p.isAbsolute = false) :
    ∃ kept dropped name, Cut p kept dropped name := by
  obtain ⟨name, hname⟩ := h
  obtain ⟨init, last, htext, hpieces, -⟩ := p.pieces_append
  have hstep := step_of_last hname htext hpieces
  obtain rfl := eq_of_ofPiece? hstep
  have hcounts := counts_of_step hstep init.length
  have hlast : p.lastPiece? = some (init.length, last) := by
    rw [lastPiece?, hpieces]
    dsimp only
    rw [List.length_append, List.length_singleton, List.range_succ, List.zip_append (by simp),
      List.filter_append]
    simp [hcounts.1]
  obtain ⟨dropped, hinit, hidle, hfirst, hend⟩ := keepPieces_append init [last]
  refine ⟨keepPieces init.length (init ++ [last]), dropped, last, hrelative,
    FileTree.endsInSlash_of_getLast? hname, ?_, hstep, ?_, ?_, hidle, fun hnil => ?_, hend,
    fun hkept => ?_⟩
  · rw [← hinit, hpieces]
  · rw [parent?, hlast, hrelative, hpieces]
    rfl
  · rw [fileName?, hlast]
    dsimp only
    rw [hcounts.2]
  · -- the text would start with a slash
    cases init with
    | nil => exact (List.append_eq_nil_iff.1 hinit.symm).2
    | cons first rest =>
        obtain rfl := hfirst hnil first rfl
        rw [isAbsolute, htext] at hrelative
        cases hrelative
  · refine ⟨String.ofList ((dropped.flatMap fun piece => piece.toList ++ ['/']) ++ last.toList),
      String.toList_inj.1 ?_⟩
    rw [String.toList_append, toList_intercalate hkept, String.toList_ofList, htext,
      ← List.append_assoc, ← List.flatMap_append, ← hinit]

namespace Cut

variable {p : Path} {kept dropped : List String} {name : String} (h : Cut p kept dropped name)
include h

theorem not_mem {piece : String} (hpiece : piece ∈ kept) : '/' ∉ piece.toList :=
  not_mem_of_mem_pieces (h.pieces ▸ List.mem_append_left _ (List.mem_append_left _ hpiece))

theorem relative_concat (hkept : kept ≠ []) (text : String) :
    isAbsolute ⟨"/".intercalate kept ++ "/" ++ text⟩ = false := by
  obtain ⟨more, hmore⟩ := h.text hkept
  have hrelative := h.relative
  have hne : ("/".intercalate kept ++ "/").toList ≠ [] := by
    rw [String.toList_append]
    exact List.append_ne_nil_of_right_ne_nil _ (by decide)
  rw [isAbsolute, hmore, String.toList_append, List.head?_append_of_ne_nil _ hne] at hrelative
  rw [isAbsolute, String.toList_append, List.head?_append_of_ne_nil _ hne]
  exact hrelative

theorem steps_dropped (loc : Location) :
    (dropped.filterMap Step.ofPiece?).foldl Step.go loc = loc := by
  have hidle := h.idle
  clear h
  induction dropped with
  | nil => rfl
  | cons piece later ih =>
      have hlater := ih fun q hq => hidle q (List.mem_cons_of_mem _ hq)
      rcases hidle piece List.mem_cons_self with rfl | rfl
      · exact hlater
      · exact hlater

theorem steps_eq : p.steps = kept.filterMap Step.ofPiece?
    ++ (dropped.filterMap Step.ofPiece? ++ [.down name]) := by
  rw [steps_of_relative h.relative h.noSlash, h.pieces, List.filterMap_append,
    List.filterMap_append, List.append_assoc]
  simp [h.step]

-- ── The parent ───────────────────────────────────────────────────────────────

theorem exists_last (hkept : kept ≠ []) :
    ∃ front last, kept = front ++ [last] ∧ last ≠ "" ∧ '/' ∉ last.toList := by
  rcases List.eq_nil_or_concat kept with hnil | ⟨front, last, hlast⟩
  · exact absurd hnil hkept
  rw [List.concat_eq_append] at hlast
  refine ⟨front, last, hlast, fun hempty => h.last ?_, h.not_mem ?_⟩
  · rw [hlast, hempty, List.getLast?_concat]
  · rw [hlast]
    exact List.mem_append_right _ List.mem_cons_self

theorem intercalate_ne_empty (hkept : kept ≠ []) : "/".intercalate kept ≠ "" := by
  obtain ⟨front, last, rfl, hne, -⟩ := h.exists_last hkept
  by_cases hfront : front = []
  · rw [hfront, List.nil_append, String.intercalate_singleton]
    exact hne
  · rw [intercalate_concat hfront]
    intro hempty
    exact hne (String.append_eq_empty_iff.1 hempty).2

theorem endsInSlash_parent (hkept : kept ≠ []) :
    endsInSlash ⟨"/".intercalate kept⟩ = false := by
  obtain ⟨front, last, rfl, hne, hslash⟩ := h.exists_last hkept
  exact endsInSlash_intercalate front hne hslash

/-- The steps of the parent. -/
theorem steps_parent (hkept : kept ≠ []) :
    steps ⟨"/".intercalate kept⟩ = kept.filterMap Step.ofPiece? := by
  have hrelative := h.relative_concat hkept ""
  have hne : ("/".intercalate kept).toList ≠ [] :=
    fun hnil => h.intercalate_ne_empty hkept (String.toList_eq_nil_iff.1 hnil)
  have habsolute : isAbsolute ⟨"/".intercalate kept⟩ = false := by
    rwa [String.append_empty, isAbsolute, String.toList_append, List.head?_append_of_ne_nil _ hne]
      at hrelative
  rw [steps_of_relative habsolute (h.endsInSlash_parent hkept),
    pieces_intercalate hkept fun piece => h.not_mem]

-- ── Another last name ────────────────────────────────────────────────────────

variable {other : String} (hslash : '/' ∉ other.toList)
include hslash

theorem withFileName_eq : p.withFileName other = ⟨"/".intercalate (kept ++ [other])⟩ := by
  have hhead : ¬ other.toList.head? = some '/' := fun heq => hslash (List.mem_of_head? heq)
  rw [withFileName, h.fileName, h.parent]
  dsimp only
  rw [join, if_neg hhead]
  by_cases hkept : kept = []
  · rw [hkept, List.nil_append, String.intercalate_singleton]
    rfl
  · have hend : (("/".intercalate kept).isEmpty
        || ("/".intercalate kept).toList.getLast? == some '/') = false := by
      refine Bool.or_eq_false_iff.2 ⟨?_, h.endsInSlash_parent hkept⟩
      exact Bool.eq_false_iff.2 fun hempty =>
        h.intercalate_ne_empty hkept (String.isEmpty_iff.1 hempty)
    dsimp only
    rw [hend, if_neg Bool.false_ne_true, intercalate_concat hkept]

theorem isAbsolute_withFileName : (p.withFileName other).isAbsolute = false := by
  rw [h.withFileName_eq hslash]
  by_cases hkept : kept = []
  · rw [hkept, List.nil_append, String.intercalate_singleton]
    exact beq_eq_false_iff_ne.2 fun heq => hslash (List.mem_of_head? heq)
  · rw [intercalate_concat hkept]
    exact h.relative_concat hkept other

theorem pieces_withFileName : (p.withFileName other).pieces = kept ++ [other] := by
  rw [h.withFileName_eq hslash]
  refine pieces_intercalate (List.append_ne_nil_of_right_ne_nil _ (List.cons_ne_nil _ _)) ?_
  intro piece hpiece
  rcases List.mem_append.1 hpiece with hmem | hmem
  · exact h.not_mem hmem
  · rw [List.mem_singleton.1 hmem]
    exact hslash

variable (hstep : Step.ofPiece? other = some (.down other))
include hstep

theorem endsInSlash_withFileName : (p.withFileName other).endsInSlash = false := by
  have hne : other ≠ "" := by
    rintro rfl
    cases hstep
  rw [h.withFileName_eq hslash]
  exact endsInSlash_intercalate kept hne hslash

theorem steps_withFileName :
    (p.withFileName other).steps = kept.filterMap Step.ofPiece? ++ [.down other] := by
  rw [steps_of_relative (h.isAbsolute_withFileName hslash)
    (h.endsInSlash_withFileName hslash hstep), h.pieces_withFileName hslash,
    List.filterMap_append]
  simp [hstep]

theorem namesFile_withFileName : (p.withFileName other).NamesFile :=
  ⟨other, by rw [h.steps_withFileName hslash hstep, List.getLast?_concat]⟩

/-- **The place beside a path**, with another name. -/
theorem place_withFileName :
    ∃ dir, p.place = dir ++ [.ofText name]
      ∧ (p.withFileName other).place = dir ++ [.ofText other] := by
  refine ⟨(kept.filterMap Step.ofPiece?).foldl Step.go [], ?_,
    place_of_concat (h.steps_withFileName hslash hstep)⟩
  have hsteps := h.steps_eq
  rw [← List.append_assoc] at hsteps
  rw [place_of_concat hsteps, List.foldl_append, h.steps_dropped]

end Cut

theorem components_of_relative {p : Path} (h : p.isAbsolute = false) {first : String}
    {later : List String} (hpieces : p.pieces = first :: later) :
    p.components = (firstComponent? first).toList ++ later.filterMap component? := by
  rw [components, hpieces]
  dsimp only
  rw [h, if_neg Bool.false_ne_true]

/-- A path with a suffix is the path with the longer last name. -/
theorem Cut.sameAs_append {p : Path} {kept dropped : List String} {name suffix : String}
    (h : Cut p kept dropped name) (hsuffix : Suffix suffix) :
    (p.withFileName (name ++ suffix)).sameAs (p.append suffix) = true := by
  obtain ⟨init, last, htext, hpieces, happend⟩ := p.pieces_append
  obtain ⟨hinit, hlast⟩ := List.append_inj' (hpieces.symm.trans h.pieces) rfl
  obtain rfl := List.singleton_inj.1 hlast
  have hname : '/' ∉ last.toList :=
    not_mem_of_mem_pieces (hpieces ▸ List.mem_append_right _ List.mem_cons_self)
  have hslash : '/' ∉ (last ++ suffix).toList := by
    rw [String.toList_append, List.mem_append, not_or]
    exact ⟨hname, hsuffix.noSlash⟩
  have hne : p.text.toList ≠ [] := by
    rw [htext]
    refine List.append_ne_nil_of_right_ne_nil _ fun hnil => ?_
    have hstep := h.step
    rw [String.toList_eq_nil_iff.1 hnil] at hstep
    cases hstep
  have hrelative : (p.append suffix).isAbsolute = false := by
    rw [isAbsolute, append, String.toList_append, List.head?_append_of_ne_nil _ hne]
    exact h.relative
  have hsibling := h.pieces_withFileName hslash
  have hlonger := happend hsuffix
  rw [hinit] at hlonger
  refine beq_iff_eq.2 ?_
  cases hkept : kept with
  | nil =>
      rw [hkept, h.first hkept] at hlonger
      rw [hkept] at hsibling
      rw [components_of_relative (h.isAbsolute_withFileName hslash) hsibling,
        components_of_relative hrelative hlonger]
  | cons first rest =>
      rw [hkept, List.cons_append, List.cons_append] at hlonger
      rw [hkept, List.cons_append] at hsibling
      have hdropped : dropped.filterMap component? = [] :=
        List.filterMap_eq_nil_iff.2 fun piece hpiece => (h.idle piece hpiece).component
      rw [components_of_relative (h.isAbsolute_withFileName hslash) hsibling,
        components_of_relative hrelative hlonger, List.filterMap_append, List.filterMap_append,
        List.filterMap_append, hdropped, List.append_nil]

end Path

namespace FileTree

/-- A path that leads somewhere and ends in a name is relative: one that starts at the root
    leads above every tree. -/
theorem relative_of_resolve {t : FileTree} {ending : Ending} {p : Path} {loc : Location}
    (hp : p.NamesFile) (h : t.resolve ending p = .ok loc) : p.isAbsolute = false := by
  obtain ⟨name, hname⟩ := hp
  obtain ⟨-, hleads⟩ := resolve_eq_ok_iff.1 h
  cases habsolute : p.isAbsolute with
  | false => rfl
  | true =>
      obtain ⟨later, hsteps⟩ : ∃ later, p.steps = .up :: later := by
        rw [Path.steps, habsolute]
        exact ⟨_, rfl⟩
      rw [hsteps] at hname hleads
      refine absurd ?_ hleads.of_root.1
      cases later with
      | nil => cases hname
      | cons step rest =>
          rw [List.getLast?_cons_cons] at hname
          exact List.any_eq_true.2 ⟨_, List.mem_of_getLast? hname, rfl⟩

/-- A path whose text goes on to one that can be walked can be walked itself. -/
theorem checkText_of_append {text more : String} (hne : text ≠ "")
    (h : checkText ⟨text ++ more⟩ = .ok ()) : checkText ⟨text⟩ = .ok () := by
  rw [checkText] at h ⊢
  by_cases hnul : Path.holdsNul ⟨text ++ more⟩ = true
  · rw [if_pos hnul] at h
    cases h
  rw [if_neg hnul] at h
  have hnul' : ¬ Path.holdsNul ⟨text⟩ = true := by
    rw [Path.holdsNul, String.toList_append, List.any_append, Bool.or_eq_true, not_or] at hnul
    exact hnul.1
  have hempty : ¬ text.isEmpty = true := fun hempty => hne (String.isEmpty_iff.1 hempty)
  have hempty' : ¬ (text ++ more).isEmpty = true := by
    intro hempty
    exact hne (String.append_eq_empty_iff.1 (String.isEmpty_iff.1 hempty)).1
  rw [if_neg hempty'] at h
  rw [if_neg hnul', if_neg hempty]
  by_cases hlimit : pathLimit ≤ (text ++ more).utf8ByteSize
  · rw [if_pos hlimit] at h
    cases h
  have hlimit' : ¬ pathLimit ≤ text.utf8ByteSize := by
    rw [String.utf8ByteSize_append] at hlimit
    omega
  exact if_neg hlimit'

/-- Nothing is created where a directory is. -/
theorem createDirAll_of_there {t : FileTree} {p : Path} {loc : Location}
    (hentry : t.entryAt p = .ok loc) (hstat : t.stat p = .ok .dir)
    (hthere : t.at? loc = some .dir) : t.createDirAll p = (.ok (), t) := by
  have hdir : t.isDir p = true := by rw [isDir, hstat]
  obtain ⟨fault, hcreate, hfault⟩ : ∃ fault, t.createDir p = .error fault ∧ fault ≠ .notFound := by
    rw [createDir, hentry]
    simp only [bind, Except.bind]
    rw [lookUp]
    cases loc.getLast? with
    | none =>
        rw [hthere]
        exact ⟨_, rfl, by decide⟩
    | some name =>
        dsimp only
        by_cases hlong : isTooLong name = true
        · rw [if_pos hlong]
          exact ⟨_, rfl, by decide⟩
        · rw [if_neg hlong, hthere]
          exact ⟨_, rfl, by decide⟩
  rw [createDirAll, Path.ancestors, Path.ancestorsFrom]
  by_cases hempty : p.text.isEmpty = true
  · rw [if_pos hempty]
    rfl
  · rw [if_neg hempty, createDirs, hcreate]
    cases fault with
    | notFound => exact absurd rfl hfault
    | _ => simp only [hdir, if_true]

/-- **Where a path leads somewhere, its parent is there**, and creating it changes nothing. -/
theorem Plain.createDirAll_parent {t : FileTree} (h : t.Plain) {p : Path} (hp : p.NamesFile)
    {loc : Location} (hleads : t.resolve .target p = .ok loc) :
    ∃ parent, p.parent? = some parent ∧ t.createDirAll parent = (.ok (), t) := by
  obtain ⟨kept, dropped, name, hcut⟩ := Path.exists_cut hp (relative_of_resolve hp hleads)
  refine ⟨_, hcut.parent, ?_⟩
  by_cases hkept : kept = []
  · rw [hkept]
    rfl
  obtain ⟨_, hcheck, hwalk⟩ := Outcome.bind_eq_ok.1 hleads
  have hparent : checkText ⟨"/".intercalate kept⟩ = .ok () := by
    obtain ⟨more, hmore⟩ := hcut.text hkept
    have hwhole : checkText ⟨"/".intercalate kept ++ ("/" ++ more)⟩ = .ok () := by
      rw [← String.append_assoc, ← hmore]
      exact hcheck
    exact checkText_of_append (hcut.intercalate_ne_empty hkept) hwhole
  rw [hcut.steps_eq, h.walkLinks_eq_ok] at hwalk
  obtain ⟨hdirs, hfront⟩ := hwalk.front (by simp [Step.isDown]) t.dirsTo_root
  have hgoes : ∀ ending, ending ≠ .place → t.Goes ending []
      (kept.filterMap Step.ofPiece?) (.arrive ((kept.filterMap Step.ofPiece?).foldl Step.go [])) := by
    intro ending hne
    have hentry := hfront ending [] _ hne .done
    rwa [List.append_nil] at hentry
  have hleads : ∀ ending, ending ≠ .place → t.resolve ending ⟨"/".intercalate kept⟩
      = .ok ((kept.filterMap Step.ofPiece?).foldl Step.go []) := by
    intro ending hne
    refine Outcome.bind_eq_ok.2 ⟨(), hparent, ?_⟩
    rw [hcut.steps_parent hkept, h.walkLinks_eq_ok]
    exact hgoes ending hne
  refine createDirAll_of_there (Outcome.bind_eq_ok.2 ⟨(), hparent, ?_⟩)
    (stat_of_resolve (hleads .target Ending.noConfusion) hdirs.self) hdirs.self
  rw [trimmed_of_endsInSlash (hcut.endsInSlash_parent hkept)]
  exact hleads .entry Ending.noConfusion

end FileTree

end Nomenclator.Files
