import Nomenclator.Proofs.Files.Sibling

/-! # Paths without `..` — places piece by piece

    A path without a piece `..` spells the location that consists of its pieces, apart
    from those that are empty or a dot (`Forward.place_eq`).  So its parent, and every
    path above it, spells a location above (`Forward.above`), and a path that is joined
    to it one below (`Forward.join`). -/

namespace Nomenclator.Files

/-- A text as a name of an entry is one: a single piece that goes down to itself. -/
structure IsName (name : String) : Prop where
  noSlash : '/' ∉ name.toList
  step : Step.ofPiece? name = some (.down name)

instance (name : String) : Decidable (IsName name) :=
  decidable_of_iff ('/' ∉ name.toList ∧ Step.ofPiece? name = some (.down name))
    ⟨fun h => ⟨h.1, h.2⟩, fun h => ⟨h.noSlash, h.step⟩⟩

/-- A name as a file system keeps it: it is not empty, neither a dot nor two of them, and holds no
    octet of a slash. -/
structure Name.IsEntry (name : Name) : Prop where
  notEmpty : name ≠ ""
  notHere : name ≠ "."
  notUp : name ≠ ".."
  noSlash : 0x2F ∉ name.octets

instance (name : Name) : Decidable name.IsEntry :=
  decidable_of_iff (name ≠ "" ∧ name ≠ "." ∧ name ≠ ".." ∧ 0x2F ∉ name.octets)
    ⟨fun h => ⟨h.1, h.2.1, h.2.2.1, h.2.2.2⟩, fun h => ⟨h.notEmpty, h.notHere, h.notUp, h.noSlash⟩⟩

/-- Such a name is shown as a name, text or not. -/
theorem Name.IsEntry.isName_lossy {name : Name} (h : name.IsEntry) : IsName name.lossy := by
  refine ⟨fun hslash => ?_, ?_⟩
  · rw [lossy, String.toList_ofList] at hslash
    have hin : [0x2F] <:+: name.octets := Text.infix_of_mem_decodeLossy (by decide) hslash
    exact h.noSlash (hin.subset List.mem_cons_self)
  · rw [Step.ofPiece?, if_neg (mt (eq_ofText_of_lossy (by decide)) h.notEmpty),
      if_neg (mt (eq_ofText_of_lossy (by decide)) h.notHere),
      if_neg (mt (eq_ofText_of_lossy (by decide)) h.notUp)]

/-- Where a component leads from a location. -/
def Component.go (loc : Location) : Component → Location
  | .root => loc
  | .current => loc
  | .parent => loc.dropLast
  | .name s => loc ++ [.ofText s]

namespace Path

instance (piece : String) : Decidable (IdlePiece piece) :=
  inferInstanceAs (Decidable (piece = "" ∨ piece = "."))

/-- The pieces that lead somewhere. -/
def names (pieces : List String) : List String := pieces.filter fun piece => ¬ IdlePiece piece

theorem names_append (front back : List String) :
    names (front ++ back) = names front ++ names back :=
  List.filter_append ..

theorem names_of_idle {pieces : List String} (h : ∀ piece ∈ pieces, IdlePiece piece) :
    names pieces = [] :=
  List.filter_eq_nil_iff.2 fun piece hpiece => by simpa using h piece hpiece

theorem not_idle_of_isName {name : String} (h : IsName name) : ¬ IdlePiece name := by
  have hstep := h.step
  rintro (rfl | rfl)
  · cases hstep
  · exact absurd hstep (by decide)

theorem names_of_isName {pieces : List String} (h : ∀ name ∈ pieces, IsName name) :
    names pieces = pieces :=
  List.filter_eq_self.2 fun name hname => by simpa using not_idle_of_isName (h name hname)

theorem not_mem_of_isName {pieces : List String} (h : ∀ name ∈ pieces, IsName name) :
    ".." ∉ pieces := by
  intro hup
  exact absurd (h _ hup).step (by decide)

/-- No piece of the path is `..`. -/
def Forward (p : Path) : Prop := ".." ∉ p.pieces

instance (p : Path) : Decidable p.Forward := inferInstanceAs (Decidable (".." ∉ p.pieces))

/-- The place of a path depends on its pieces only. -/
theorem place_eq_pieces (p : Path) :
    p.place = (p.pieces.filterMap Step.ofPiece?).foldl Step.go [] := by
  have hstart : (if p.isAbsolute then [Step.up] else []).foldl Step.go [] = [] := by
    cases p.isAbsolute <;> rfl
  rw [place, steps, List.foldl_append, List.foldl_append, hstart]
  cases p.endsInSlash <;> rfl

theorem foldl_names {pieces : List String} (h : ".." ∉ pieces) (loc : Location) :
    (pieces.filterMap Step.ofPiece?).foldl Step.go loc = loc ++ (names pieces).map .ofText := by
  induction pieces generalizing loc with
  | nil => exact (List.append_nil loc).symm
  | cons piece later ih =>
      rw [List.mem_cons, not_or] at h
      rw [List.filterMap_cons, names, List.filter_cons, Step.ofPiece?, ← names]
      by_cases hempty : piece = ""
      · rw [if_pos hempty, if_neg (by simp [IdlePiece, hempty])]
        exact ih h.2 loc
      rw [if_neg hempty]
      by_cases hdot : piece = "."
      · rw [if_pos hdot, if_neg (by simp [IdlePiece, hdot])]
        exact ih h.2 loc
      rw [if_neg hdot, if_neg (Ne.symm h.1), if_pos (by simp [IdlePiece, hempty, hdot])]
      exact (ih h.2 _).trans (List.append_assoc loc [.ofText piece] _)

/-- **The place of a path without `..`** is made of its pieces. -/
theorem Forward.place_eq {p : Path} (h : p.Forward) : p.place = (names p.pieces).map .ofText := by
  rw [place_eq_pieces, foldl_names h, List.nil_append]

/-- A path without `..` that does not start at the root only goes down. -/
theorem Forward.descends {p : Path} (h : p.Forward) (hrelative : p.isAbsolute = false) :
    p.Descends := by
  rw [Descends, steps, hrelative]
  rintro hup
  rcases List.mem_append.1 hup with hup | hup
  · obtain ⟨piece, hpiece, hstep⟩ := List.mem_filterMap.1 (by simpa using hup)
    have hdots : piece = ".." := by
      rw [Step.ofPiece?] at hstep
      split at hstep
      · cases hstep
      · split at hstep
        · cases hstep
        · split at hstep
          · assumption
          · cases hstep
    exact h (hdots ▸ hpiece)
  · cases hslash : p.endsInSlash <;> rw [hslash] at hup <;> simp at hup

/-- The names in a path without `..` are those that its steps go down to. -/
theorem Forward.mem_steps {p : Path} (h : p.Forward) {name : Name} :
    .down name ∈ p.steps ↔ name ∈ (names p.pieces).map .ofText := by
  have hends : ∀ (c : Bool) (step : Step), Step.isDown step = false →
      .down name ∉ (if c then [step] else []) := by
    intro c step hstep hmem
    cases c with
    | false => cases hmem
    | true =>
        rw [← List.mem_singleton.1 hmem] at hstep
        cases hstep
  rw [steps, List.mem_append, List.mem_append, or_iff_left (hends _ _ rfl),
    or_iff_right (hends _ _ rfl), List.mem_filterMap, List.mem_map]
  refine exists_congr fun piece => ?_
  rw [names, List.mem_filter, and_assoc]
  refine and_congr_right fun hpiece => ?_
  constructor
  · intro hstep
    refine ⟨decide_eq_true ?_, (eq_of_ofPiece? hstep).symm⟩
    rintro (rfl | rfl)
    · cases hstep
    · have hhere : some Step.here = some (.down name) := hstep
      cases hhere
  · rintro ⟨hidle, rfl⟩
    have hidle : ¬ (piece = "" ∨ piece = ".") := of_decide_eq_true hidle
    rw [not_or] at hidle
    have hdots : piece ≠ ".." := fun heq => h (heq ▸ hpiece)
    rw [Step.ofPiece?, if_neg hidle.1, if_neg hidle.2, if_neg hdots]

-- ── Components ───────────────────────────────────────────────────────────────

theorem foldl_components (loc : Location) (pieces : List String) :
    (pieces.filterMap component?).foldl Component.go loc
      = (pieces.filterMap Step.ofPiece?).foldl Step.go loc := by
  induction pieces generalizing loc with
  | nil => rfl
  | cons piece later ih =>
      rw [List.filterMap_cons, List.filterMap_cons, component?, Step.ofPiece?]
      by_cases hempty : piece = ""
      · rw [if_pos (.inl hempty), if_pos hempty]
        exact ih loc
      by_cases hdot : piece = "."
      · rw [if_pos (.inr hdot), if_neg hempty, if_pos hdot]
        exact ih loc
      rw [if_neg (not_or.2 ⟨hempty, hdot⟩), if_neg hempty, if_neg hdot]
      by_cases hup : piece = ".."
      · rw [if_pos hup, if_pos hup]
        exact ih loc.dropLast
      · rw [if_neg hup, if_neg hup]
        exact ih (loc ++ [.ofText piece])

/-- The components of a path lead to the place that its steps lead to. -/
theorem place_eq_components (p : Path) : p.place = p.components.foldl Component.go [] := by
  rw [place_eq_pieces, ← foldl_components, components]
  cases hpieces : p.pieces with
  | nil => rfl
  | cons first later =>
      dsimp only
      rw [List.foldl_append, List.filterMap_cons]
      by_cases habsolute : p.isAbsolute = true
      · -- an absolute path starts with an empty piece
        obtain ⟨rest, htext⟩ : ∃ rest, p.text.toList = '/' :: rest := by
          rw [isAbsolute, beq_iff_eq] at habsolute
          exact ⟨_, (List.head?_eq_some_iff.1 habsolute).choose_spec⟩
        rw [pieces, htext] at hpieces
        obtain ⟨rfl, -⟩ := List.cons.inj hpieces
        rw [if_pos habsolute, show component? (String.ofList []) = none from by decide]
        rfl
      · rw [if_neg habsolute, firstComponent?]
        by_cases hdot : first = "."
        · rw [if_pos hdot, hdot, show component? "." = none from by decide]
          rfl
        · rw [if_neg hdot]
          cases component? first with
          | none => rfl
          | some c => rfl

theorem place_of_sameAs {p q : Path} (h : p.sameAs q = true) : p.place = q.place := by
  rw [place_eq_components, place_eq_components, eq_of_beq h]

-- ── Texts ────────────────────────────────────────────────────────────────────

theorem pieces_cut (front back : List Char) :
    Text.pieces '/' (front ++ '/' :: back) = Text.pieces '/' front ++ Text.pieces '/' back :=
  @Text.piecesWhere_append_cons (fun c => c == '/') front '/' rfl back

/-- A slash between two texts separates their pieces. -/
theorem pieces_slash (front back : String) :
    (mk (front ++ "/" ++ back)).pieces = (mk front).pieces ++ (mk back).pieces := by
  rw [pieces, String.toList_append, String.toList_append, List.append_assoc,
    show "/".toList ++ back.toList = '/' :: back.toList from rfl, pieces_cut, List.map_append]
  rfl

theorem pieces_empty : (mk "").pieces = [""] := by decide

theorem eq_append_slash {p : Path} (h : p.endsInSlash = true) :
    ∃ front, p.text = front ++ "/" := by
  obtain ⟨front, hfront⟩ := List.getLast?_eq_some_iff.1 (eq_of_beq h)
  refine ⟨String.ofList front, String.toList_inj.1 ?_⟩
  rw [hfront, String.toList_append, String.toList_ofList]
  rfl

/-- Slashes at the end of a text only bring empty pieces. -/
theorem steps_slashes (front slashes : List Char) (h : ∀ c ∈ slashes, c = '/') :
    ((Text.pieces '/' (front ++ slashes)).map String.ofList).filterMap Step.ofPiece?
      = ((Text.pieces '/' front).map String.ofList).filterMap Step.ofPiece? := by
  induction slashes generalizing front with
  | nil => rw [List.append_nil]
  | cons c later ih =>
      obtain rfl := h c List.mem_cons_self
      rw [List.append_cons, ih _ fun d hd => h d (List.mem_cons_of_mem _ hd), pieces_cut,
        List.map_append, List.filterMap_append]
      exact List.append_nil _

/-- Slashes at the end of a path are its last step, unless there is nothing else. -/
theorem trimmed_cases (p : Path) : p.trimmed = p
    ∨ ∃ slashes, p.text = p.trimmed.text ++ slashes ∧ p.trimmed.text ≠ ""
      ∧ p.steps = p.trimmed.steps ++ [.slash] := by
  cases hslash : p.endsInSlash with
  | false => exact .inl (FileTree.trimmed_of_endsInSlash hslash)
  | true =>
      rw [trimmed]
      have hsplit : p.text.toList = (p.text.toList.reverse.dropWhile (· == '/')).reverse
          ++ (p.text.toList.reverse.takeWhile (· == '/')).reverse := by
        rw [← List.reverse_append, List.takeWhile_append_dropWhile, List.reverse_reverse]
      have hslashes : ∀ c ∈ (p.text.toList.reverse.takeWhile (· == '/')).reverse, c = '/' :=
        fun c hc => eq_of_beq (List.mem_takeWhile_imp (p := (· == '/')) (List.mem_reverse.1 hc))
      have hlast := List.head?_dropWhile_not (· == '/') p.text.toList.reverse
      generalize p.text.toList.reverse.dropWhile (· == '/') = kept at hsplit hlast
      generalize (p.text.toList.reverse.takeWhile (· == '/')).reverse = slashes at hsplit hslashes
      cases kept with
      | nil => exact .inl rfl
      | cons c rest =>
          refine .inr ⟨String.ofList slashes, ?_, ?_, ?_⟩
          · rw [← String.ofList_append, ← hsplit, String.ofList_toList]
          · intro hempty
            have hnil := congrArg String.toList hempty
            rw [String.toList_ofList, List.reverse_cons] at hnil
            exact List.append_ne_nil_of_right_ne_nil _ (List.cons_ne_nil c []) hnil
          · have habsolute : p.isAbsolute
                = (mk (String.ofList (c :: rest).reverse)).isAbsolute := by
              rw [isAbsolute, isAbsolute, hsplit, String.toList_ofList, List.reverse_cons,
                List.append_assoc, List.head?_append, List.head?_append (l := rest.reverse)]
              rfl
            have hends : (mk (String.ofList (c :: rest).reverse)).endsInSlash = false := by
              rw [endsInSlash, String.toList_ofList, List.getLast?_reverse, List.head?_cons]
              exact hlast
            rw [steps, steps, hslash, hends, habsolute, pieces, pieces, hsplit,
              String.toList_ofList, steps_slashes _ _ hslashes]
            rw [if_pos rfl, if_neg Bool.false_ne_true, List.append_nil]

/-- Slashes at the end of a path do not change its place. -/
theorem place_trimmed (p : Path) : p.trimmed.place = p.place := by
  rcases trimmed_cases p with hsame | ⟨_, -, -, hsteps⟩
  · rw [hsame]
  · rw [place, place, hsteps, List.foldl_append]
    rfl

-- ── The parent ───────────────────────────────────────────────────────────────

/-- The piece that counts last, with those after it. -/
theorem exists_lastPiece {p : Path} {index : Nat} {piece : String}
    (h : p.lastPiece? = some (index, piece)) :
    ∃ rest, p.pieces = p.pieces.take index ++ piece :: rest ∧ (p.pieces.take index).length = index
      ∧ ∀ other ∈ rest, IdlePiece other := by
  rw [lastPiece?] at h
  obtain ⟨front, hfront⟩ := List.getLast?_eq_some_iff.1 h
  obtain ⟨before, after, hsplit, hbefore, hafter⟩ := List.filter_eq_append_iff.1 hfront
  obtain ⟨skipped, later, rfl, hskipped, hcounts, hlater⟩ := List.filter_eq_cons_iff.1 hafter
  have hpieces : p.pieces = ((before ++ skipped).map Prod.snd) ++ piece :: later.map Prod.snd := by
    have hsnd := congrArg (List.map Prod.snd) hsplit
    rw [List.map_snd_zip (by simp)] at hsnd
    rw [hsnd, ← List.append_assoc, List.map_append]
    rfl
  have hindex : (before ++ skipped).length = index := by
    have hfst := congrArg (List.map Prod.fst) hsplit
    rw [List.map_fst_zip (by simp), ← List.append_assoc, List.map_append, List.map_cons] at hfst
    have hget := congrArg (fun xs : List Nat => xs[(before ++ skipped).length]?) hfst
    dsimp only at hget
    rw [List.getElem?_append_right (by simp), List.length_map, Nat.sub_self,
      List.getElem?_cons_zero, List.getElem?_range] at hget
    · exact Option.some.inj hget
    · have hlength := congrArg List.length hpieces
      simp only [List.length_append, List.length_map, List.length_cons] at hlength ⊢
      omega
  have htake : p.pieces.take index = (before ++ skipped).map Prod.snd := by
    rw [hpieces, ← hindex, ← List.length_map (f := Prod.snd), List.take_left]
  refine ⟨later.map Prod.snd, ?_, ?_, fun other hother => ?_⟩
  · rw [htake]
    exact hpieces
  · rw [htake, List.length_map, hindex]
  · obtain ⟨e, he, rfl⟩ := List.mem_map.1 hother
    have hcounts : counts e.1 e.2 = false :=
      Bool.eq_false_iff.2 (List.filter_eq_nil_iff.1 hlater e he)
    exact idlePiece_of_counts hcounts

theorem component?_eq_name {piece name : String} (h : component? piece = some (.name name)) :
    piece = name ∧ ¬ IdlePiece name := by
  rw [component?] at h
  by_cases hidle : piece = "" ∨ piece = "."
  · rw [if_pos hidle] at h
    cases h
  rw [if_neg hidle] at h
  by_cases hdots : piece = ".."
  · rw [if_pos hdots] at h
    cases h
  rw [if_neg hdots] at h
  obtain rfl := Component.name.inj (Option.some.inj h)
  exact ⟨rfl, hidle⟩

/-- The file name is the piece that counts last. -/
theorem fileName?_eq_some {p : Path} {index : Nat} {piece name : String}
    (hlast : p.lastPiece? = some (index, piece)) (h : p.fileName? = some name) :
    piece = name ∧ ¬ IdlePiece name := by
  rw [fileName?, hlast] at h
  dsimp only at h
  have hcomponent : (if index = 0 then firstComponent? piece else component? piece)
      = some (.name name) := by
    generalize (if index = 0 then firstComponent? piece else component? piece) = c at h ⊢
    cases c with
    | none => cases h
    | some c =>
        cases c with
        | name s => rw [Option.some.inj h]
        | root | current | parent => cases h
  refine component?_eq_name ?_
  by_cases hzero : index = 0
  · rw [if_pos hzero, firstComponent?] at hcomponent
    by_cases hdot : piece = "."
    · rw [if_pos hdot] at hcomponent
      cases hcomponent
    · rwa [if_neg hdot] at hcomponent
  · rwa [if_neg hzero] at hcomponent

/-- Pieces that are joined by slashes, or the root where they come to nothing. -/
theorem names_intercalate {kept : List String} (h : ∀ piece ∈ kept, '/' ∉ piece.toList)
    (start : Bool) {q : Path}
    (hq : q = ⟨if start && ("/".intercalate kept).isEmpty then "/" else "/".intercalate kept⟩) :
    names q.pieces = names kept ∧ (".." ∈ q.pieces → ".." ∈ kept) := by
  have hempty : "/".intercalate kept = "" → names kept = [] := by
    intro hempty
    by_cases hnil : kept = []
    · rw [hnil]
      rfl
    · rw [← pieces_intercalate hnil h, hempty]
      decide
  rw [hq]
  by_cases hroot : (start && ("/".intercalate kept).isEmpty) = true
  · rw [if_pos hroot, hempty (String.isEmpty_iff.1 (Bool.and_eq_true_iff.1 hroot).2)]
    exact ⟨by decide, fun hup => absurd hup (by decide)⟩
  rw [if_neg hroot]
  by_cases hnil : kept = []
  · rw [hnil]
    decide
  · rw [pieces_intercalate hnil h]
    exact ⟨rfl, id⟩

/-- **The parent**: the pieces before the one that counts last, and that piece. -/
theorem names_parent {p q : Path} (h : p.parent? = some q) :
    ∃ front piece rest, p.pieces = front ++ piece :: rest ∧ (∀ other ∈ rest, IdlePiece other)
      ∧ names q.pieces = names front ∧ (".." ∈ q.pieces → ".." ∈ front)
      ∧ ∀ name, p.fileName? = some name → piece = name ∧ ¬ IdlePiece name := by
  rw [parent?] at h
  cases hlast : p.lastPiece? with
  | none => rw [hlast] at h; cases h
  | some last =>
      obtain ⟨index, piece⟩ := last
      rw [hlast] at h
      obtain ⟨rest, hpieces, hlength, hrest⟩ := exists_lastPiece hlast
      generalize p.pieces.take index = front at hpieces hlength
      obtain ⟨dropped, hfront, hidle, -, -⟩ := keepPieces_append front (piece :: rest)
      rw [hlength, ← hpieces] at hfront
      have hslash : ∀ piece ∈ keepPieces index p.pieces, '/' ∉ piece.toList := by
        intro piece hpiece
        refine not_mem_of_mem_pieces (p := p) ?_
        rw [hpieces, hfront]
        exact List.mem_append_left _ (List.mem_append_left _ hpiece)
      obtain ⟨hnames, hup⟩ := names_intercalate hslash p.isAbsolute (Option.some.inj h).symm
      refine ⟨front, piece, rest, hpieces, hrest, ?_, fun hdots => ?_,
        fun name hname => fileName?_eq_some hlast hname⟩
      · rw [hnames, hfront, names_append, names_of_idle hidle, List.append_nil]
      · rw [hfront]
        exact List.mem_append_left _ (hup hdots)

/-- The parent of a path without `..` is one, and its place is above. -/
theorem Forward.parent {p q : Path} (h : p.Forward) (hq : p.parent? = some q) :
    q.Forward ∧ q.place <+: p.place
      ∧ ∀ name, p.fileName? = some name → p.place = q.place ++ [.ofText name] := by
  obtain ⟨front, piece, rest, hpieces, hrest, hnames, hup, hname⟩ := names_parent hq
  have hforward : q.Forward := fun hdots => h (hpieces ▸ List.mem_append_left _ (hup hdots))
  have hplace : p.place = q.place ++ (names [piece]).map .ofText := by
    rw [h.place_eq, hforward.place_eq, hnames, hpieces, List.append_cons, names_append,
      names_append, names_of_idle hrest, List.append_nil, List.map_append]
  refine ⟨hforward, hplace ▸ List.prefix_append _ _, fun name hfile => ?_⟩
  obtain ⟨rfl, hidle⟩ := hname name hfile
  rw [hplace, names, List.filter_singleton]
  simp [hidle]

/-- **What is above a path without `..`** spells locations above its place. -/
theorem Forward.above {p : Path} (h : p.Forward) {q : Path} (hq : q ∈ p.ancestors) :
    q.place <+: p.place := by
  have hfuel : ∀ (fuel : Nat) {p : Path}, p.Forward → q ∈ ancestorsFrom fuel p →
      q.place <+: p.place := by
    intro fuel
    induction fuel with
    | zero => exact fun _ hmem => nomatch hmem
    | succ fuel ih =>
        intro p h hmem
        rw [ancestorsFrom] at hmem
        by_cases hempty : p.text.isEmpty = true
        · rw [if_pos hempty] at hmem
          cases hmem
        rw [if_neg hempty] at hmem
        rcases List.mem_cons.1 hmem with rfl | hmem
        · exact List.prefix_refl _
        · cases hparent : p.parent? with
          | none => rw [hparent] at hmem; cases hmem
          | some parent =>
              rw [hparent] at hmem
              obtain ⟨hforward, habove, -⟩ := h.parent hparent
              exact (ih hforward hmem).trans habove
  exact hfuel _ h hq

-- ── Paths below ──────────────────────────────────────────────────────────────

theorem head_intercalate {rel : List String} (hne : rel ≠ []) (h : ∀ name ∈ rel, IsName name) :
    ("/".intercalate rel).toList.head? ≠ some '/' := by
  have hpieces : (mk ("/".intercalate rel)).pieces = rel :=
    pieces_intercalate hne fun name hname => (h name hname).noSlash
  intro hhead
  obtain ⟨rest, htext⟩ := List.head?_eq_some_iff.1 hhead
  rw [pieces, htext] at hpieces
  have hempty : "" ∈ rel := by
    rw [← hpieces]
    exact List.mem_cons_self
  exact not_idle_of_isName (h _ hempty) (.inl rfl)

theorem join_intercalate {p : Path} {rel : List String} (hne : rel ≠ [])
    (h : ∀ name ∈ rel, IsName name) :
    names (p.join ("/".intercalate rel)).pieces = names p.pieces ++ rel
      ∧ (".." ∈ (p.join ("/".intercalate rel)).pieces → ".." ∈ p.pieces) := by
  have hpieces : (mk ("/".intercalate rel)).pieces = rel :=
    pieces_intercalate hne fun name hname => (h name hname).noSlash
  have hback : names rel = rel := names_of_isName h
  have hdots : ".." ∉ rel := not_mem_of_isName h
  rw [join, if_neg (head_intercalate hne h)]
  by_cases hempty : p.text = ""
  · rw [if_pos (by rw [hempty]; rfl), hempty, String.empty_append, hpieces, hback,
      show p = mk "" from congrArg mk hempty, pieces_empty]
    exact ⟨rfl, fun hup => absurd hup hdots⟩
  by_cases hslash : p.endsInSlash = true
  · obtain ⟨front, hfront⟩ := eq_append_slash hslash
    rw [if_pos (by rw [Bool.or_eq_true]; exact .inr hslash), hfront, pieces_slash, hpieces,
      show p = mk (front ++ "/" ++ "") by rw [String.append_empty, ← hfront], pieces_slash,
      pieces_empty, names_append, names_append, hback, List.mem_append, List.mem_append]
    refine ⟨?_, fun hup => .inl (hup.resolve_right hdots)⟩
    rw [show names [""] = [] from by decide, List.append_nil]
  · have hcond : ¬ (p.text.isEmpty || p.text.toList.getLast? == some '/') = true := by
      rw [Bool.or_eq_true, not_or, String.isEmpty_iff]
      exact ⟨hempty, hslash⟩
    rw [if_neg hcond, pieces_slash, hpieces, names_append, hback, List.mem_append]
    exact ⟨rfl, fun hup => hup.resolve_right hdots⟩

/-- The text of a path below another one goes on from it. -/
theorem join_text (p : Path) {text : String} (h : text.toList.head? ≠ some '/') : ∃ more,
    (p.join text).text = p.text ++ more := by
  rw [join, if_neg h]
  split
  · exact ⟨text, rfl⟩
  · exact ⟨"/" ++ text, String.append_assoc ..⟩

/-- **A path below another one** spells the location below its place. -/
theorem Forward.join {p : Path} (hp : p.Forward) {rel : List String} (hne : rel ≠ [])
    (h : ∀ name ∈ rel, IsName name) :
    (p.join ("/".intercalate rel)).Forward
      ∧ (p.join ("/".intercalate rel)).place = p.place ++ rel.map .ofText := by
  obtain ⟨hnames, hup⟩ := join_intercalate (p := p) hne h
  have hforward : (p.join ("/".intercalate rel)).Forward := fun hdots => hp (hup hdots)
  exact ⟨hforward, by rw [hforward.place_eq, hp.place_eq, hnames, List.map_append]⟩

/-- A path with a suffix spells a location in what its place is, or is in. -/
theorem Forward.append {p : Path} (h : p.Forward) {suffix : String} (hsuffix : Suffix suffix) :
    ∃ dir name, (p.append suffix).place = dir ++ [.ofText name] ∧ dir <+: p.place := by
  obtain ⟨init, last, -, hpieces, happend⟩ := p.pieces_append
  have hlonger := happend hsuffix
  have hforward : (p.append suffix).Forward := by
    rw [Forward, hlonger, List.mem_append, not_or, List.mem_singleton]
    refine ⟨fun hdots => h (hpieces ▸ List.mem_append_left _ hdots), ?_⟩
    exact (hsuffix.ne_of_short last (by decide)).symm
  refine ⟨(names init).map .ofText, last ++ suffix, ?_, ?_⟩
  · rw [hforward.place_eq, hlonger, names_append, List.map_append]
    have hempty : last ++ suffix ≠ "" := hsuffix.ne_of_short last (by decide)
    have hdot : last ++ suffix ≠ "." := hsuffix.ne_of_short last (by decide)
    congr 1
    rw [names, List.filter_singleton]
    simp [IdlePiece, hempty, hdot]
  · rw [h.place_eq, hpieces, names_append, List.map_append]
    exact List.prefix_append _ _

end Path

end Nomenclator.Files
