import Nomenclator.Proofs.Naming.Merging

/-! # Nested members — which member rows of a nested document are kept

    A row that is indented once and starts with `f` or `m` belongs to the nearest
    class row above it.  Below a class row it is never lost: it is read into that
    class or the document is refused, and joining repeated declarations keeps what
    it says.

    Above all class rows it is a property of the document.  Properties that are not
    known are passed over, and so is a member row there
    (`Catalog.load_passes_over_property`). -/

namespace Nomenclator.Naming

namespace Nested

-- ── What stands above a line ─────────────────────────────────────────────────

/-- The names in the row of a class: a row that is not indented and starts with `c`. -/
def classCells (line : List Char) : Option (List String) :=
  if depth line = 0 ∧ (rowCells line).headD "" = "c" then some (rowCells line).tail else none

/-- The names in the nearest class row. -/
def classAbove (above : List (Nat × List Char)) : Option (List String) :=
  (above.filterMap fun entry => classCells entry.2).getLast?

/-- The properties have ended: there is a row of another depth than one. -/
def PastProperties (above : List (Nat × List Char)) : Prop :=
  ∃ entry ∈ above, isRow entry.2 = true ∧ depth entry.2 ≠ 1

instance (above : List (Nat × List Char)) : Decidable (PastProperties above) :=
  inferInstanceAs (Decidable (∃ entry ∈ above, isRow entry.2 = true ∧ depth entry.2 ≠ 1))

theorem classAbove_concat (above : List (Nat × List Char)) (entry : Nat × List Char) :
    classAbove (above ++ [entry]) = (classCells entry.2).or (classAbove above) := by
  rw [classAbove, List.filterMap_append, List.getLast?_append]
  cases hcells : classCells entry.2 <;> simp [hcells, classAbove]

theorem classCells_of_indented {line : List Char} (h : depth line ≠ 0) : classCells line = none :=
  if_neg fun hclass => h hclass.1

/-- A line with a cell that is not blank is a row. -/
theorem isRow_of_cell {line : List Char} {cell : String} {c : Char} (hcell : cell ∈ rowCells line)
    (hmem : c ∈ cell.toList) (hc : Text.isBlank c = false) : isRow line = true := by
  obtain ⟨piece, hpiece, rfl⟩ := List.mem_map.1 hcell
  rw [String.toList_ofList] at hmem
  exact isRow_of_mem (List.mem_of_mem_drop (Text.mem_of_mem_piecesWhere hpiece hmem).1) hc

theorem isRow_of_classCells {line : List Char} {names : List String}
    (h : classCells line = some names) : isRow line = true ∧ depth line = 0 := by
  by_cases hclass : depth line = 0 ∧ (rowCells line).headD "" = "c"
  · obtain ⟨word, rest, hcells⟩ := List.exists_cons_of_ne_nil (rowCells_ne_nil line)
    have hword : word = "c" := by
      rw [hcells] at hclass
      exact hclass.2
    refine ⟨isRow_of_cell (c := 'c') (hcells ▸ List.mem_cons_self) ?_ rfl, hclass.1⟩
    rw [hword]
    exact List.mem_cons_self
  · rw [classCells, if_neg hclass] at h
    exact nomatch h

theorem classCells_of_blank {line : List Char} (h : isRow line = false) :
    classCells line = none := by
  cases hcells : classCells line with
  | none => rfl
  | some names => exact absurd (h.symm.trans (isRow_of_classCells hcells).1) Bool.false_ne_true

/-- Below a class row the properties have ended. -/
theorem pastProperties_of_classAbove {above : List (Nat × List Char)} {names : List String}
    (h : classAbove above = some names) : PastProperties above := by
  obtain ⟨entry, hentry, hcells⟩ := List.mem_filterMap.1 (List.mem_of_getLast? h)
  obtain ⟨hrow, hdepth⟩ := isRow_of_classCells hcells
  exact ⟨entry, hentry, hrow, by rw [hdepth]; decide⟩

/-- What the reader knows of the lines above: among properties they are properties, and
    afterwards there is a class row whose class comes first in the state. -/
structure Above (above : List (Nat × List Char)) (s : State) : Prop where
  inside : s.inProperties = true →
    s.inMember = false ∧ ∀ entry ∈ above, isRow entry.2 = true → depth entry.2 = 1
  outside : s.inProperties = false → ∃ names c earlier, classAbove above = some names
    ∧ s.classes = c :: earlier ∧ c.names = names.map s.cellText

/-- A row of the body keeps it. The first of them can only be a class row: the others are
    indented once, or stand below a member. -/
theorem Above.readRow {count : Nat} {above : List (Nat × List Char)} {entry : Nat × List Char}
    {s s' : State} (h : Above above s) (hpast : s.inProperties = true → depth entry.2 ≠ 1)
    (hstep : RowStep count entry.1 { s with inProperties := false } (depth entry.2)
      (rowCells entry.2) s') : Above (above ++ [entry]) s' := by
  cases hstep with
  | skip _ heq hword =>
      subst heq
      have hout : s.inProperties = false := by
        refine Bool.eq_false_iff.2 fun hin => ?_
        rcases hword with ⟨hdepth, -⟩ | ⟨-, hmember⟩
        · exact hpast hin hdepth
        · exact Bool.false_ne_true ((h.inside hin).1.symm.trans hmember)
      have hindented : depth entry.2 ≠ 0 := by omega
      refine ⟨fun hin => absurd hin Bool.false_ne_true, fun _ => ?_⟩
      rw [classAbove_concat, classCells_of_indented hindented]
      exact h.outside hout
  | newClass names hdepth hcells hnames =>
      refine ⟨fun hin => absurd hin Bool.false_ne_true, fun _ => ⟨names, _, _, ?_, rfl, rfl⟩⟩
      rw [classAbove_concat, classCells, if_pos ⟨hdepth, by rw [hcells]; rfl⟩, hcells]
      rfl
  | newMember kind c earlier descriptor names hclasses hdepth hcells hdesc hnames =>
      have hout : s.inProperties = false := Bool.eq_false_iff.2 fun hin => hpast hin hdepth
      have hindented : depth entry.2 ≠ 0 := by omega
      obtain ⟨owner, c', earlier', habove, hfirst, howner⟩ := h.outside hout
      obtain ⟨rfl, rfl⟩ := List.cons.inj (hfirst.symm.trans hclasses)
      refine ⟨fun hin => absurd hin Bool.false_ne_true, fun _ => ⟨owner, _, _, ?_, rfl, ?_⟩⟩
      · rw [classAbove_concat, classCells_of_indented hindented]
        exact habove
      · rw [ClassRow.names_addMember]
        exact howner

/-- A line keeps what the reader knows of the lines above. -/
theorem Above.readLine {count : Nat} {above : List (Nat × List Char)} {entry : Nat × List Char}
    {s s' : State} (h : Above above s) (hread : s.readLine count entry = .ok s') :
    Above (above ++ [entry]) s' := by
  cases readLine_eq_ok hread with
  | blank hrow =>
      refine ⟨fun hin => ⟨(h.inside hin).1, fun e he hrow' => ?_⟩, fun hout => ?_⟩
      · rcases List.mem_append.1 he with he | he
        · exact (h.inside hin).2 e he hrow'
        · rw [List.mem_singleton.1 he, hrow] at hrow'
          exact nomatch hrow'
      · rw [classAbove_concat, classCells_of_blank hrow]
        exact h.outside hout
  | property hrow hin hdepth =>
      refine ⟨fun _ => ⟨(h.inside hin).1, fun e he hrow' => ?_⟩, fun hout => ?_⟩
      · rcases List.mem_append.1 he with he | he
        · exact (h.inside hin).2 e he hrow'
        · rw [List.mem_singleton.1 he]
          exact hdepth
      · exact absurd (hout.symm.trans hin) Bool.false_ne_true
  | body _ hrow hpast hstep =>
      exact h.readRow hpast hstep

-- ── What has been read stays ─────────────────────────────────────────────────

/-- A class row with the names has a member row that says what the cells say. -/
def Holds (names : List String) (kind : MemberKind) (cells : List String)
    (classes : List ClassRow) : Prop :=
  ∃ c ∈ classes, c.names = names ∧ cells ∈ c.contents kind

theorem Holds.readRow {count number depth : Nat} {names cells rowCells : List String}
    {kind : MemberKind} {s s' : State} (h : Holds names kind cells s.classes)
    (hstep : RowStep count number s depth rowCells s') : Holds names kind cells s'.classes := by
  obtain ⟨c, hc, hnames, hcells⟩ := h
  cases hstep with
  | skip _ heq _ => exact heq ▸ ⟨c, hc, hnames, hcells⟩
  | newClass _ _ _ _ => exact ⟨c, List.mem_cons_of_mem _ hc, hnames, hcells⟩
  | newMember kind' c' earlier descriptor _ hclasses =>
      rcases List.mem_cons.1 (hclasses ▸ hc) with rfl | hc
      · refine ⟨_, List.mem_cons_self, (ClassRow.names_addMember ..).trans hnames, ?_⟩
        rw [ClassRow.contents, ClassRow.members_addMember]
        by_cases hkind : kind = kind'
        · rw [if_pos hkind, List.map_append]
          exact List.mem_append_left _ hcells
        · rw [if_neg hkind]
          exact hcells
      · exact ⟨c, List.mem_cons_of_mem _ hc, hnames, hcells⟩

theorem Holds.readLine {count : Nat} {names cells : List String} {kind : MemberKind}
    {entry : Nat × List Char} {s s' : State} (h : Holds names kind cells s.classes)
    (hread : s.readLine count entry = .ok s') : Holds names kind cells s'.classes := by
  cases readLine_eq_ok hread with
  | blank _ => exact h
  | property _ _ _ => exact h
  | body _ _ _ hstep => exact Holds.readRow (s := { s with inProperties := false }) h hstep

theorem memberWord_injective {kind kind' : MemberKind} (h : memberWord kind = memberWord kind') :
    kind = kind' := by
  cases kind <;> cases kind' <;> first | rfl | exact absurd h (by decide)

theorem isRow_of_memberWord {line : List Char} {kind : MemberKind} {cells : List String}
    (h : rowCells line = memberWord kind :: cells) : isRow line = true := by
  have hcell : memberWord kind ∈ rowCells line := h ▸ List.mem_cons_self
  cases kind with
  | field => exact isRow_of_cell (c := 'f') hcell List.mem_cons_self rfl
  | method => exact isRow_of_cell (c := 'm') hcell List.mem_cons_self rfl

/-- **A member row.** Past the properties it is read into the class of the nearest class row. -/
theorem Above.readMember {count number : Nat} {above : List (Nat × List Char)}
    {line : List Char} {kind : MemberKind} {cells : List String} {s s' : State}
    (h : Above above s) (hpast : PastProperties above) (hdepth : depth line = 1)
    (hcells : rowCells line = memberWord kind :: cells)
    (hread : s.readLine count (number, line) = .ok s') :
    s.inProperties = false ∧ ∃ owner, classAbove above = some owner
      ∧ Holds (owner.map s.cellText) kind (cells.map s.cellText) s'.classes := by
  have hout : s.inProperties = false := by
    refine Bool.eq_false_iff.2 fun hin => ?_
    obtain ⟨entry, hentry, hrow, hother⟩ := hpast
    exact hother ((h.inside hin).2 entry hentry hrow)
  refine ⟨hout, ?_⟩
  obtain ⟨owner, c, earlier, habove, hclasses, hnames⟩ := h.outside hout
  refine ⟨owner, habove, ?_⟩
  cases readLine_eq_ok hread with
  | blank hrow => exact absurd (hrow.symm.trans (isRow_of_memberWord hcells)) Bool.false_ne_true
  | property _ hin _ => exact absurd (hout.symm.trans hin) Bool.false_ne_true
  | body _ _ _ hstep =>
      dsimp only at hstep
      rw [hdepth, hcells] at hstep
      cases hstep with
      | skip _ _ hword =>
          rcases hword with ⟨-, hword⟩ | ⟨hdeep, -⟩
          · have hne : memberWord kind ≠ "c" := by cases kind <;> decide
            exact absurd hword hne
          · omega
      | newClass _ hzero => exact absurd hzero (by decide)
      | newMember kind' c' earlier' descriptor names hfirst _ hword _ _ =>
          obtain ⟨hkind, rfl⟩ := List.cons.inj hword
          obtain rfl := memberWord_injective hkind
          obtain ⟨rfl, rfl⟩ := List.cons.inj (hclasses.symm.trans hfirst)
          refine ⟨_, List.mem_cons_self, (ClassRow.names_addMember ..).trans hnames, ?_⟩
          rw [ClassRow.contents, ClassRow.members_addMember, if_pos rfl, List.map_append]
          exact List.mem_append_right _ List.mem_cons_self

end Nested

-- ── Refusals ─────────────────────────────────────────────────────────────────

/-- The error is a fault of a line. -/
def Error.IsParse (e : Error) : Prop := ∃ line fault, e = .parse line fault

theorem Namespaces.isParse_of_declare {labels : List String} {e : Error}
    (h : declare labels = .error e) : e.IsParse := by
  rw [declare] at h
  split at h
  · cases h
    exact ⟨_, _, rfl⟩
  · split at h <;> cases h
    exact ⟨_, _, rfl⟩

theorem isParse_of_readNames {count line : Nat} {cells : List String} {e : Error}
    (h : readNames count line cells = .error e) : e.IsParse := by
  rw [readNames] at h
  split at h
  · cases h
    exact ⟨_, _, rfl⟩
  · split at h <;> cases h
    exact ⟨_, _, rfl⟩

namespace Nested

theorem isParse_of_addMember {s : State} {count line : Nat} {kind : MemberKind}
    {cells : List String} {e : Error} (h : s.addMember count line kind cells = .error e) :
    e.IsParse := by
  rw [State.addMember] at h
  split at h
  · cases h
    exact ⟨_, _, rfl⟩
  · split at h
    · split at h
      · cases h
        exact ⟨_, _, rfl⟩
      · split at h
        · cases h
          exact ⟨_, _, rfl⟩
        · exact isParse_of_readNames (Outcome.map_eq_error.1 h)
    · cases h
      exact ⟨_, _, rfl⟩

theorem isParse_of_readRow {s : State} {count line depth : Nat} {cells : List String} {e : Error}
    (h : s.readRow count line depth cells = .error e) : e.IsParse := by
  have hmember : ∀ {e' : Error}, e'.IsParse →
      (if s.inMember then .ok s else .error e') = (.error e : Except Error State) →
        e.IsParse := by
    intro e' he' hif
    split at hif <;> cases hif
    exact he'
  simp only [State.readRow] at h
  split at h
  · exact isParse_of_readNames (Outcome.map_eq_error.1 h)
  · exact isParse_of_addMember h
  · exact isParse_of_addMember h
  · cases h
  · exact hmember ⟨_, _, rfl⟩ h
  · exact hmember ⟨_, _, rfl⟩ h
  · exact hmember ⟨_, _, rfl⟩ h
  · exact hmember ⟨_, _, rfl⟩ h
  · cases h
    exact ⟨_, _, rfl⟩

theorem isParse_of_readLine {s : State} {count : Nat} {entry : Nat × List Char} {e : Error}
    (h : s.readLine count entry = .error e) : e.IsParse := by
  rw [State.readLine] at h
  dsimp only at h
  split at h
  · cases h
  · split at h
    · cases h
    · exact isParse_of_readRow h

/-- A nested document is refused for a fault of one of its lines. -/
theorem isParse_of_read {header : List Char} {body : List (Nat × List Char)} {e : Error}
    (h : read header body = .error e) : e.IsParse := by
  rw [read] at h
  split at h
  · cases h
    exact ⟨_, _, rfl⟩
  · rcases Outcome.bind_eq_error.1 h with h | ⟨namespaces, -, h⟩
    · exact Namespaces.isParse_of_declare h
    rcases Outcome.bind_eq_error.1 h with h | ⟨final, -, h⟩
    · obtain ⟨_, -, _, hstep⟩ := Outcome.exists_step_of_foldlM_eq_error h
      exact isParse_of_readLine hstep
    · cases h

-- ── Documents ────────────────────────────────────────────────────────────────

/-- **Reading keeps member rows.** A member row past the properties stands below a class row,
    and is a row of that class in what is read. -/
theorem holds_of_read {header : List Char} {above below : List (Nat × List Char)} {number : Nat}
    {line : List Char} {kind : MemberKind} {cells : List String} {doc : Document}
    (hpast : PastProperties above) (hdepth : depth line = 1)
    (hcells : rowCells line = memberWord kind :: cells)
    (h : read header (above ++ (number, line) :: below) = .ok doc) :
    ∃ owner, classAbove above = some owner
      ∧ Holds (owner.map (unescape (escapes (above ++ (number, line) :: below)))) kind
          (cells.map (unescape (escapes (above ++ (number, line) :: below)))) doc.classes := by
  obtain ⟨-, final, hfinal, hclasses⟩ := exists_run_of_read h
  rw [List.foldlM_append] at hfinal
  obtain ⟨s, hs, hfinal⟩ := Outcome.bind_eq_ok.1 hfinal
  rw [List.foldlM_cons] at hfinal
  obtain ⟨s', hs', hfinal⟩ := Outcome.bind_eq_ok.1 hfinal
  have hstart : Above [] {} :=
    ⟨fun _ => ⟨rfl, (fun _ he => nomatch he)⟩, (fun hout => nomatch hout)⟩
  have habove : Above above s :=
    Outcome.foldlM_history Above (fun _ _ _ _ hi hstep => hi.readLine hstep) hstart hs
  obtain ⟨hout, owner, howner, hholds⟩ := habove.readMember hpast hdepth hcells hs'
  refine ⟨owner, howner, ?_⟩
  have hflag : s.cellText = unescape (escapes (above ++ (number, line) :: below)) := by
    rw [← (Reading.of_front _ hs).outside hout]
    rfl
  rw [← hflag]
  have hend := Outcome.foldlM_induction
    (fun _ s => Holds _ kind _ s.classes) (fun _ _ _ _ hi hstep => hi.readLine hstep) hholds hfinal
  obtain ⟨c, hc, hmember⟩ := hend
  exact ⟨c, hclasses ▸ List.mem_reverse.2 hc, hmember⟩

end Nested

theorem Document.read_nested {text : String} {header : Nat × List Char}
    {body : List (Nat × List Char)} (hlines : Text.numberedLines text.toList = header :: body)
    (hformat : Format.detect (header :: body) = .ok .tinyV2) :
    Document.read text = Nested.read header.2 body := by
  rw [Document.read, hlines, hformat]
  rfl

/-- A member row shows in a catalog: the class of the nearest class row above has a member with
    its names and, in the first namespace, its descriptor. -/
def Catalog.Shows (catalog : Catalog) (escaped : Bool) (above : List (Nat × List Char))
    (kind : MemberKind) (cells : List String) : Prop :=
  ∃ owner, Nested.classAbove above = some owner
    ∧ ∃ c ∈ catalog.classes, c.names = owner.map (Nested.unescape escaped)
        ∧ ∃ m ∈ c.members kind, m.descriptor 0 :: m.names = cells.map (Nested.unescape escaped)

/-- What reading holds of a row shows in the catalog. -/
theorem Catalog.shows_of_load {text : String} {header : Nat × List Char}
    {above below : List (Nat × List Char)} {number : Nat} {line : List Char} {kind : MemberKind}
    {cells : List String} {catalog : Catalog}
    (hlines : Text.numberedLines text.toList = header :: (above ++ (number, line) :: below))
    (hformat : Format.detect (header :: (above ++ (number, line) :: below)) = .ok .tinyV2)
    (hdepth : Nested.depth line = 1)
    (hcells : Nested.rowCells line = Nested.memberWord kind :: cells)
    (hpast : Nested.PastProperties above) (h : load text = .ok catalog) :
    catalog.Shows (Nested.escapes (above ++ (number, line) :: below)) above kind cells := by
  obtain ⟨doc, hread, hentries, -, hns, -⟩ := load_eq_ok_iff.1 h
  obtain ⟨hdeclared, -, -, hgood⟩ := Document.read_eq_ok hread
  rw [← hns] at hdeclared hgood
  have hlists := Document.lists_of_entries hgood (List.length_pos_iff.2 hdeclared) hentries hns
  rw [Document.read_nested hlines hformat] at hread
  obtain ⟨owner, howner, c, hc, hnames, hmember⟩ :=
    Nested.holds_of_read hpast hdepth hcells hread
  obtain ⟨d, hd, hdnames, hkeeps⟩ := hlists.keeps hc
  exact ⟨owner, howner, d, hd, hdnames.trans hnames, List.mem_map.1 (hkeeps kind _ hmember)⟩

/-- **Member rows are kept past the properties, and only there.** In a nested document that is
    loaded, a member row shows in the catalog exactly when a row of another depth than one
    stands above it. If that is so and there is no class row above it, the document is refused
    for a fault of a line. -/
theorem Catalog.load_shows_member_iff {text : String} {header : Nat × List Char}
    {above below : List (Nat × List Char)} {number : Nat} {line : List Char} {kind : MemberKind}
    {cells : List String}
    (hlines : Text.numberedLines text.toList = header :: (above ++ (number, line) :: below))
    (hformat : Format.detect (header :: (above ++ (number, line) :: below)) = .ok .tinyV2)
    (hdepth : Nested.depth line = 1)
    (hcells : Nested.rowCells line = Nested.memberWord kind :: cells) :
    (∀ catalog, load text = .ok catalog →
        (catalog.Shows (Nested.escapes (above ++ (number, line) :: below)) above kind cells
          ↔ Nested.PastProperties above))
      ∧ (Nested.PastProperties above → Nested.classAbove above = none →
          ∃ n fault, load text = .error (.parse n fault)) := by
  constructor
  · intro catalog hload
    constructor
    · rintro ⟨owner, howner, -⟩
      exact Nested.pastProperties_of_classAbove howner
    · intro hpast
      exact shows_of_load hlines hformat hdepth hcells hpast hload
  · intro hpast hnone
    have hread := Document.read_nested hlines hformat
    cases hdoc : Nested.read header.2 (above ++ (number, line) :: below) with
    | ok doc =>
        obtain ⟨owner, howner, -⟩ := Nested.holds_of_read hpast hdepth hcells hdoc
        exact nomatch hnone.symm.trans howner
    | error e =>
        obtain ⟨n, fault, rfl⟩ := Nested.isParse_of_read hdoc
        refine ⟨n, fault, ?_⟩
        rw [load, hread, hdoc]
        rfl

/-- A method below the second row of its class, with escaped names; and a field below a row
    that belongs nowhere. -/
theorem Catalog.load_shows_member_escaped :
    (∃ catalog,
      load "tiny\t2\t0\ta\tb\n\tescaped-names\nc\tx\tP\n\tf\tI\tn\to\nc\tx\tP\n\tm\tV\tk\\\\t\tl\n"
          = .ok catalog
        ∧ catalog.classes
          = [⟨["x", "P"], [⟨["n", "o"], ["I", "I"]⟩], [⟨["k\\t", "l"], ["V", "V"]⟩]⟩]
        ∧ catalog.Shows true [(2, "\tescaped-names".toList), (3, "c\tx\tP".toList),
            (4, "\tf\tI\tn\to".toList), (5, "c\tx\tP".toList)] .method ["V", "k\\\\t", "l"])
      ∧ ∃ n fault, load "tiny\t2\t0\ta\tb\n\t\tp\n\tf\tI\tx\ty\n" = .error (.parse n fault) := by
  constructor
  · have hlines : Text.numberedLines
        "tiny\t2\t0\ta\tb\n\tescaped-names\nc\tx\tP\n\tf\tI\tn\to\nc\tx\tP\n\tm\tV\tk\\\\t\tl\n".toList
          = (1, "tiny\t2\t0\ta\tb".toList) :: ([(2, "\tescaped-names".toList),
            (3, "c\tx\tP".toList), (4, "\tf\tI\tn\to".toList), (5, "c\tx\tP".toList)]
              ++ (6, "\tm\tV\tk\\\\t\tl".toList) :: []) := rfl
    have hcells : Nested.rowCells "\tm\tV\tk\\\\t\tl".toList
        = Nested.memberWord .method :: ["V", "k\\\\t", "l"] := rfl
    refine ⟨_, rfl, rfl, ?_⟩
    exact ((load_shows_member_iff hlines rfl rfl hcells).1 _ rfl).2 (by decide)
  · have hlines : Text.numberedLines "tiny\t2\t0\ta\tb\n\t\tp\n\tf\tI\tx\ty\n".toList
        = (1, "tiny\t2\t0\ta\tb".toList)
          :: ([(2, "\t\tp".toList)] ++ (3, "\tf\tI\tx\ty".toList) :: []) := rfl
    have hcells : Nested.rowCells "\tf\tI\tx\ty".toList
        = Nested.memberWord .field :: ["I", "x", "y"] := rfl
    exact (load_shows_member_iff hlines rfl rfl hcells).2 (by decide) rfl

/-- Above all class rows a field is taken for a property of the document, and passed over. -/
theorem Catalog.load_passes_over_property :
    Text.numberedLines "tiny\t2\t0\ta\tb\n\tf\tI\tx\ty\nc\tA\tB\n".toList
        = (1, "tiny\t2\t0\ta\tb".toList)
          :: ([] ++ (2, "\tf\tI\tx\ty".toList) :: [(3, "c\tA\tB".toList)])
      ∧ Nested.depth "\tf\tI\tx\ty".toList = 1
      ∧ Nested.rowCells "\tf\tI\tx\ty".toList = Nested.memberWord .field :: ["I", "x", "y"]
      ∧ ∃ catalog, load "tiny\t2\t0\ta\tb\n\tf\tI\tx\ty\nc\tA\tB\n" = .ok catalog
          ∧ catalog.classes = [⟨["A", "B"], [], []⟩]
          ∧ ¬ catalog.Shows false [] .field ["I", "x", "y"] := by
  refine ⟨rfl, rfl, rfl, _, rfl, rfl, ?_⟩
  rintro ⟨owner, howner, -⟩
  exact nomatch howner

end Nomenclator.Naming
