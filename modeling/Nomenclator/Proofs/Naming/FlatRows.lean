import Nomenclator.Proofs.Naming.Layouts
import Nomenclator.Proofs.Naming.Merging

/-! # Flat rows — which flat documents are loaded, and with what

    A flat document is a header with labels and rows of cells.  Whether it is loaded
    can be seen from these alone (`Flat.Acceptable`), and so can the classes and
    members of the catalog (`Flat.Content`): class names and members, each once, in
    the order of their first rows.

    * **Reading** — a row is read exactly when it has one of three first cells and
      the right number of cells, none of them empty;
    * **Giving** — every member is given to the first row of its owner, so after
      joining it stands in row order among the members of its owner;
    * **Order** — only the order of class rows and, for each owner and kind, the
      order of member rows matters. -/

namespace Nomenclator.Naming

-- ── Labels and names that are accepted ───────────────────────────────────────

theorem Namespaces.firstFault_of_distinct {earlier labels : List String} (hempty : "" ∉ labels)
    (hnodup : labels.Nodup) (hnew : ∀ label ∈ labels, label ∉ earlier) :
    firstFault earlier labels = none := by
  induction labels generalizing earlier with
  | nil => rfl
  | cons label later ih =>
      obtain ⟨hfirst, hlater⟩ := List.nodup_cons.1 hnodup
      have hne : label ≠ "" := fun heq => hempty (heq ▸ List.mem_cons_self)
      rw [firstFault, if_neg hne, if_neg (hnew label List.mem_cons_self)]
      refine ih (fun hmem => hempty (List.mem_cons_of_mem _ hmem)) hlater fun l hl hmem => ?_
      rcases List.mem_append.1 hmem with hmem | hmem
      · exact hnew l (List.mem_cons_of_mem _ hl) hmem
      · exact hfirst (List.mem_singleton.1 hmem ▸ hl)

/-- Labels are declared exactly when there are some, none empty and none twice. -/
theorem Namespaces.declare_eq_ok_iff {labels : List String} {ns : Namespaces} :
    declare labels = .ok ns
      ↔ ns.labels = labels ∧ labels ≠ [] ∧ "" ∉ labels ∧ labels.Nodup := by
  refine ⟨declare_eq_ok, ?_⟩
  rintro ⟨rfl, hne, hempty, hnodup⟩
  have hfault : firstFault [] ns.labels = none :=
    firstFault_of_distinct hempty hnodup fun _ _ => List.not_mem_nil
  rw [declare, if_neg (by rw [List.isEmpty_iff]; exact hne), hfault]

theorem firstMissing_of_not_mem {column : Nat} {names : List String} (h : "" ∉ names) :
    firstMissing column names = none := by
  induction names generalizing column with
  | nil => rfl
  | cons name later ih =>
      have hne : name ≠ "" := fun heq => h (heq ▸ List.mem_cons_self)
      rw [firstMissing, if_neg hne]
      exact ih fun hmem => h (List.mem_cons_of_mem _ hmem)

/-- Names are read exactly when there is one for each namespace and none is empty. -/
theorem readNames_eq_ok_iff {count line : Nat} {cells names : List String} :
    readNames count line cells = .ok names ↔ names = cells ∧ FullNames count cells := by
  refine ⟨readNames_eq_ok, ?_⟩
  rintro ⟨rfl, hlen, hempty⟩
  rw [readNames, if_neg (not_not.2 hlen), firstMissing_of_not_mem hempty]

theorem fullNames_cons {count : Nat} {word : String} {cells : List String} (hword : word ≠ "") :
    FullNames (1 + count) (word :: cells) ↔ FullNames count cells := by
  have hlen : (word :: cells).length = 1 + count ↔ cells.length = count := by
    rw [List.length_cons]
    omega
  have hempty : "" ∉ word :: cells ↔ "" ∉ cells := by
    rw [List.mem_cons, not_or]
    exact and_iff_right hword.symm
  exact and_congr hlen hempty

namespace Flat

-- ── Rows of cells ────────────────────────────────────────────────────────────

/-- The cells of a row. -/
def Row.cells : Row → List String
  | .ofClass c => "CLASS" :: c.names
  | .ofMember kind owner m => memberWord kind :: owner :: m.cells

/-- The row of a class has a name for each namespace, and the row of a member two cells more;
    none is empty. -/
def Shaped (count : Nat) (cells : List String) : Prop :=
  (cells.head? = some "CLASS" ∧ FullNames (1 + count) cells)
    ∨ ∃ kind, cells.head? = some (memberWord kind) ∧ FullNames (3 + count) cells

theorem memberWord_ne_class (kind : MemberKind) : memberWord kind ≠ "CLASS" := by
  cases kind <;> decide

theorem memberWord_inj {kind kind' : MemberKind} :
    memberWord kind = memberWord kind' ↔ kind = kind' := by
  cases kind <;> cases kind' <;> decide

theorem fullNames_member {count : Nat} {kind : MemberKind} {owner descriptor : String}
    {names : List String} :
    FullNames (3 + count) (memberWord kind :: owner :: descriptor :: names)
      ↔ FullNames count names ∧ owner ≠ "" ∧ descriptor ≠ "" := by
  have hword : memberWord kind ≠ "" := by cases kind <;> decide
  have hcount : 3 + count = 1 + (1 + (1 + count)) := by omega
  rw [hcount, fullNames_cons hword]
  constructor
  · intro h
    have howner : owner ≠ "" := fun heq => h.2 (heq ▸ List.mem_cons_self)
    have hdesc : descriptor ≠ "" := fun heq => h.2 (heq ▸ List.mem_cons_of_mem _ List.mem_cons_self)
    exact ⟨(fullNames_cons hdesc).1 ((fullNames_cons howner).1 h), howner, hdesc⟩
  · rintro ⟨hnames, howner, hdesc⟩
    exact (fullNames_cons howner).2 ((fullNames_cons hdesc).2 hnames)

/-- A member row is read exactly when it has all its cells. -/
theorem readMember_eq_ok_iff {count line : Nat} {kind : MemberKind} {cells : List String}
    {row : Row} :
    readMember count line kind (memberWord kind) cells = .ok row
      ↔ FullNames (3 + count) (memberWord kind :: cells)
        ∧ ∃ owner descriptor names, cells = owner :: descriptor :: names
          ∧ row = .ofMember kind owner { line, descriptor, names } := by
  rcases cells with _ | ⟨owner, _ | ⟨descriptor, names⟩⟩
  · constructor
    · intro h
      cases h
    · rintro ⟨-, _, _, _, ⟨⟩, -⟩
  · constructor
    · intro h
      cases h
    · rintro ⟨-, _, _, _, ⟨⟩, -⟩
  · rw [fullNames_member]
    constructor
    · intro h
      simp only [readMember] at h
      split at h
      · cases h
      split at h
      · cases h
      split at h
      · cases h
      · next _ howner hdesc =>
          obtain ⟨read, hread, rfl⟩ := Outcome.map_eq_ok.1 h
          obtain ⟨rfl, hfull⟩ := readNames_eq_ok_iff.1 hread
          exact ⟨⟨hfull, howner, hdesc⟩, owner, descriptor, _, rfl, rfl⟩
    · rintro ⟨⟨hfull, howner, hdesc⟩, _, _, _, ⟨⟩, rfl⟩
      rw [readMember, if_neg (not_not.2 hfull.1), if_neg howner, if_neg hdesc,
        readNames_eq_ok_iff.2 ⟨rfl, hfull⟩]
      rfl

/-- A row that is read says what is in its cells, and these have the shape of a row. -/
theorem cells_of_readRow {count number : Nat} {line : List Char} {row : Row}
    (h : readRow count number line = .ok row) :
    row.cells = Text.cells line ∧ Shaped count (Text.cells line) := by
  have hmember : ∀ kind {cells}, Text.cells line = memberWord kind :: cells →
      readMember count number kind (memberWord kind) cells = .ok row →
        row.cells = Text.cells line ∧ Shaped count (Text.cells line) := by
    intro kind cells hcells hread
    obtain ⟨hfull, owner, descriptor, names, rfl, rfl⟩ := readMember_eq_ok_iff.1 hread
    rw [hcells]
    exact ⟨rfl, .inr ⟨kind, rfl, hfull⟩⟩
  rw [readRow] at h
  split at h
  · next names hcells =>
      obtain ⟨read, hread, rfl⟩ := Outcome.map_eq_ok.1 h
      obtain ⟨rfl, hfull⟩ := readNames_eq_ok_iff.1 hread
      rw [hcells]
      exact ⟨rfl, .inl ⟨rfl, (fullNames_cons (by decide)).2 hfull⟩⟩
  · next cells hcells => exact hmember .field hcells h
  · next cells hcells => exact hmember .method hcells h
  · cases h
  · cases h

/-- A row whose cells have the shape is read. -/
theorem exists_readRow {count : Nat} (number : Nat) {line : List Char}
    (h : Shaped count (Text.cells line)) : ∃ row, readRow count number line = .ok row := by
  rw [readRow]
  rcases h with ⟨hword, hfull⟩ | ⟨kind, hword, hfull⟩
  · obtain ⟨names, hcells⟩ := List.head?_eq_some_iff.1 hword
    rw [hcells] at hfull ⊢
    have hnames := (fullNames_cons (by decide)).1 hfull
    exact ⟨_, Outcome.map_eq_ok.2 ⟨names, readNames_eq_ok_iff.2 ⟨rfl, hnames⟩, rfl⟩⟩
  · obtain ⟨cells, hcells⟩ := List.head?_eq_some_iff.1 hword
    rw [hcells] at hfull ⊢
    obtain ⟨owner, descriptor, names, rfl⟩ : ∃ owner descriptor names,
        cells = owner :: descriptor :: names := by
      have hlen := hfull.1
      rcases cells with _ | ⟨owner, _ | ⟨descriptor, names⟩⟩
      · simp only [List.length_cons, List.length_nil] at hlen
        omega
      · simp only [List.length_cons, List.length_nil] at hlen
        omega
      · exact ⟨owner, descriptor, names, rfl⟩
    have hread : readMember count number kind (memberWord kind) (owner :: descriptor :: names)
        = .ok (.ofMember kind owner { line := number, descriptor, names }) :=
      readMember_eq_ok_iff.2 ⟨hfull, owner, descriptor, names, rfl, rfl⟩
    cases kind with
    | field => exact ⟨_, hread⟩
    | method => exact ⟨_, hread⟩

/-- The cells of the rows among some lines. -/
def rowsIn (lines : List (List Char)) : List (List String) := (lines.filter isRow).map Text.cells

theorem rowsIn_cons_of_row {line : List Char} (h : isRow line = true)
    (later : List (List Char)) : rowsIn (line :: later) = Text.cells line :: rowsIn later := by
  rw [rowsIn, List.filter_cons_of_pos h]
  rfl

theorem rowsIn_cons_of_not {line : List Char} (h : ¬ isRow line = true)
    (later : List (List Char)) : rowsIn (line :: later) = rowsIn later := by
  rw [rowsIn, List.filter_cons_of_neg h]
  rfl

/-- **Rows that are read** say what is in their cells, and these have the shape of rows. -/
theorem cells_of_readRows {count : Nat} {lines : List (Nat × List Char)} {rows : List Row}
    (h : readRows count lines = .ok rows) :
    rows.map Row.cells = rowsIn (lines.map Prod.snd)
      ∧ ∀ cells ∈ rowsIn (lines.map Prod.snd), Shaped count cells := by
  induction lines generalizing rows with
  | nil =>
      cases h
      exact ⟨rfl, fun _ hc => nomatch hc⟩
  | cons entry later ih =>
      obtain ⟨number, line⟩ := entry
      by_cases hrow : isRow line = true
      · rw [readRows_cons hrow] at h
        obtain ⟨row, hfirst, h⟩ := Outcome.bind_eq_ok.1 h
        obtain ⟨rest, hrest, rfl⟩ := Outcome.map_eq_ok.1 h
        obtain ⟨hcells, hshaped⟩ := cells_of_readRow hfirst
        obtain ⟨hlater, hall⟩ := ih hrest
        rw [List.map_cons, List.map_cons, rowsIn_cons_of_row hrow, hcells, hlater]
        exact ⟨rfl, List.forall_mem_cons.2 ⟨hshaped, hall⟩⟩
      · rw [readRows, if_neg hrow] at h
        rw [List.map_cons, rowsIn_cons_of_not hrow]
        exact ih h

/-- Rows whose cells have the shape are read. -/
theorem exists_readRows {count : Nat} {lines : List (Nat × List Char)}
    (h : ∀ cells ∈ rowsIn (lines.map Prod.snd), Shaped count cells) :
    ∃ rows, readRows count lines = .ok rows := by
  induction lines with
  | nil => exact ⟨[], rfl⟩
  | cons entry later ih =>
      obtain ⟨number, line⟩ := entry
      rw [List.map_cons] at h
      by_cases hrow : isRow line = true
      · rw [rowsIn_cons_of_row hrow] at h
        obtain ⟨hfirst, hlater⟩ := List.forall_mem_cons.1 h
        obtain ⟨row, hread⟩ := exists_readRow number hfirst
        obtain ⟨rest, hrest⟩ := ih hlater
        rw [readRows_cons hrow, hread, hrest]
        exact ⟨_, rfl⟩
      · rw [rowsIn_cons_of_not hrow] at h
        rw [readRows, if_neg hrow]
        exact ih h

-- ── Giving members to their classes ──────────────────────────────────────────

theorem giveTo_eq_none {owner : String} {kind : MemberKind} {m : MemberRow}
    {classes : List ClassRow} (h : owner ∉ classes.map ClassRow.firstName) :
    giveTo owner kind m classes = none := by
  induction classes with
  | nil => rfl
  | cons c later ih =>
      obtain ⟨hfirst, hlater⟩ := not_or.1 (mt List.mem_cons.2 h)
      rw [giveTo, if_neg (Ne.symm hfirst), ih hlater]
      rfl

/-- Members are given exactly when the owner of each has a row. -/
theorem giveAll_eq_ok_iff {members : List (MemberKind × String × MemberRow)}
    {classes out : List ClassRow} :
    giveAll classes members = .ok out
      ↔ (∀ e ∈ members, e.2.1 ∈ classes.map ClassRow.firstName)
        ∧ out = giveEach members classes := by
  constructor
  · intro h
    have howned : ∀ e ∈ members, e.2.1 ∈ classes.map ClassRow.firstName := by
      induction members generalizing classes with
      | nil => exact List.forall_mem_nil _
      | cons e later ih =>
          obtain ⟨kind, owner, m⟩ := e
          rw [giveAll] at h
          by_cases howner : owner ∈ classes.map ClassRow.firstName
          · rw [giveTo_eq_give howner] at h
            have hlater := ih h
            rw [firstNames_give] at hlater
            exact List.forall_mem_cons.2 ⟨howner, hlater⟩
          · rw [giveTo_eq_none howner] at h
            cases h
    exact ⟨howned, Except.ok.inj (h.symm.trans (giveAll_eq_giveEach howned))⟩
  · rintro ⟨howned, rfl⟩
    exact giveAll_eq_giveEach howned

end Flat

theorem names_giveEach (members : List (MemberKind × String × MemberRow))
    (classes : List ClassRow) :
    (giveEach members classes).map ClassRow.names = classes.map ClassRow.names := by
  induction members generalizing classes with
  | nil => rfl
  | cons e later ih => exact (ih _).trans (names_give ..)

theorem membersUnder_cons (kind : MemberKind) (name : String) (c : ClassRow)
    (later : List ClassRow) :
    membersUnder kind name (c :: later)
      = (if c.firstName = name then c.members kind else []) ++ membersUnder kind name later := by
  by_cases hname : c.firstName = name
  · rw [if_pos hname, membersUnder, List.filter_cons_of_pos (by exact decide_eq_true hname),
      List.flatMap_cons]
    rfl
  · rw [if_neg hname, membersUnder, List.filter_cons_of_neg (by simpa using hname)]
    rfl

/-- Rows without members hold none. -/
theorem membersUnder_of_bare (kind : MemberKind) {name : String} {rows : List ClassRow}
    (h : ∀ c ∈ rows, c.firstName = name → c.Bare) : membersUnder kind name rows = [] := by
  refine List.flatMap_eq_nil_iff.2 fun c hc => ?_
  obtain ⟨hc, heq⟩ := List.mem_filter.1 hc
  obtain ⟨hfields, hmethods⟩ := h c hc (of_decide_eq_true heq)
  cases kind with
  | field => exact hfields
  | method => exact hmethods

/-- A member that is given comes last among those of its owner, where only the first row of a
    name has members. -/
theorem membersUnder_give {owner : String} {kind : MemberKind} {m : MemberRow}
    {rows : List ClassRow} (hfirst : FirstHolds rows)
    (howner : owner ∈ rows.map ClassRow.firstName) (other : MemberKind) (name : String) :
    membersUnder other name (give owner kind m rows)
      = membersUnder other name rows ++ if kind = other ∧ owner = name then [m] else [] := by
  induction rows with
  | nil => exact nomatch howner
  | cons c later ih =>
      obtain ⟨hbare, hlater⟩ := List.pairwise_cons.1 hfirst
      rw [give]
      by_cases hc : c.firstName = owner
      · rw [if_pos hc, membersUnder_cons, membersUnder_cons, ClassRow.firstName_addMember, hc]
        by_cases hname : owner = name
        · -- the rows below with this name have no members
          have hnone : membersUnder other name later = [] := membersUnder_of_bare other
            fun d hd heq => hbare d hd ((hc.trans hname).trans heq.symm)
          rw [if_pos hname, if_pos hname, hnone, ClassRow.members_addMember, List.append_nil,
            List.append_nil]
          by_cases hkind : other = kind
          · rw [if_pos hkind, if_pos ⟨hkind.symm, hname⟩]
          · rw [if_neg hkind, if_neg fun h => hkind h.1.symm, List.append_nil]
        · rw [if_neg hname, if_neg hname, if_neg fun h => hname h.2, List.append_nil]
      · have hmem : owner ∈ later.map ClassRow.firstName :=
          (List.mem_cons.1 howner).resolve_left fun heq => hc heq.symm
        rw [if_neg hc, membersUnder_cons, membersUnder_cons, ih hlater hmem, List.append_assoc]

/-- **Members that are given** stand among those of their owner in row order. -/
theorem membersUnder_giveEach {members : List (MemberKind × String × MemberRow)}
    {rows : List ClassRow} (hfirst : FirstHolds rows)
    (howned : ∀ e ∈ members, e.2.1 ∈ rows.map ClassRow.firstName) (kind : MemberKind)
    (name : String) :
    membersUnder kind name (giveEach members rows) = membersUnder kind name rows
      ++ members.filterMap fun e => if e.1 = kind ∧ e.2.1 = name then some e.2.2 else none := by
  induction members generalizing rows with
  | nil => exact (List.append_nil _).symm
  | cons e later ih =>
      have hlater : ∀ e' ∈ later, e'.2.1 ∈ (give e.2.1 e.1 e.2.2 rows).map ClassRow.firstName := by
        rw [firstNames_give]
        exact fun e' he' => howned e' (List.mem_cons_of_mem _ he')
      have hgiven := ih hfirst.give hlater
      rw [membersUnder_give hfirst (howned e List.mem_cons_self), List.append_assoc] at hgiven
      rw [List.filterMap_cons]
      refine hgiven.trans (congrArg (_ ++ ·) ?_)
      by_cases hmatch : e.1 = kind ∧ e.2.1 = name
      · rw [if_pos hmatch, if_pos hmatch]
        rfl
      · rw [if_neg hmatch, if_neg hmatch]
        rfl

namespace Flat

-- ── What rows declare ────────────────────────────────────────────────────────

/-- The names in the class rows, in order. -/
def classesIn (rows : List (List String)) : List (List String) :=
  rows.filterMap fun cells => if cells.head? = some "CLASS" then some cells.tail else none

/-- What the member rows of a kind and an owner say, in order: a descriptor, then names. -/
def membersIn (kind : MemberKind) (owner : String) (rows : List (List String)) :
    List (List String) :=
  rows.filterMap fun cells =>
    if cells.take 2 = [memberWord kind, owner] then some (cells.drop 2) else none

theorem classesIn_cells (rows : List Row) :
    classesIn (rows.map Row.cells) = (classRows rows).map ClassRow.names := by
  rw [classesIn, classRows, List.filterMap_map, List.map_filterMap]
  refine List.filterMap_congr fun row _ => ?_
  cases row with
  | ofClass c => rfl
  | ofMember kind owner m =>
      have hword : ¬ (Row.ofMember kind owner m).cells.head? = some "CLASS" := fun heq =>
        memberWord_ne_class kind (Option.some.inj heq)
      exact if_neg hword

theorem membersIn_cells (kind : MemberKind) (owner : String) (rows : List Row) :
    membersIn kind owner (rows.map Row.cells)
      = ((memberRows rows).filterMap fun e =>
          if e.1 = kind ∧ e.2.1 = owner then some e.2.2 else none).map MemberRow.cells := by
  rw [membersIn, memberRows, List.filterMap_map, List.filterMap_filterMap, List.map_filterMap]
  refine List.filterMap_congr fun row _ => ?_
  cases row with
  | ofClass c =>
      have hword : ¬ (Row.ofClass c).cells.take 2 = [memberWord kind, owner] := fun heq =>
        memberWord_ne_class kind (List.head_eq_of_cons_eq heq).symm
      exact if_neg hword
  | ofMember kind' owner' m =>
      have htake : (Row.ofMember kind' owner' m).cells.take 2 = [memberWord kind, owner]
          ↔ kind' = kind ∧ owner' = owner := by
        show [memberWord kind', owner'] = [memberWord kind, owner] ↔ _
        rw [List.cons.injEq, List.cons.injEq, memberWord_inj]
        exact and_congr_right fun _ => and_iff_left rfl
      simp only [Function.comp_apply, htake, Option.bind_some]
      by_cases hmatch : kind' = kind ∧ owner' = owner
      · rw [if_pos hmatch, if_pos hmatch]
        rfl
      · rw [if_neg hmatch, if_neg hmatch]
        rfl

/-- The owner of every member has a class row. -/
def Owned (rows : List (List String)) : Prop :=
  ∀ kind owner, membersIn kind owner rows ≠ [] → ∃ names ∈ classesIn rows, firstOf names = owner

theorem owned_iff (rows : List Row) :
    Owned (rows.map Row.cells)
      ↔ ∀ e ∈ memberRows rows, e.2.1 ∈ (classRows rows).map ClassRow.firstName := by
  have hclass : ∀ owner, (∃ names ∈ classesIn (rows.map Row.cells), firstOf names = owner)
      ↔ owner ∈ (classRows rows).map ClassRow.firstName := by
    intro owner
    have hfirst : (classRows rows).map ClassRow.firstName
        = (classesIn (rows.map Row.cells)).map firstOf := by
      rw [classesIn_cells, List.map_map]
      rfl
    rw [hfirst]
    exact List.mem_map.symm
  have hmember : ∀ kind owner, membersIn kind owner (rows.map Row.cells) ≠ []
      ↔ ∃ e ∈ memberRows rows, e.1 = kind ∧ e.2.1 = owner := by
    intro kind owner
    rw [membersIn_cells, Ne, List.map_eq_nil_iff, List.filterMap_eq_nil_iff]
    simp
  constructor
  · intro h e he
    exact (hclass _).1 (h e.1 e.2.1 ((hmember _ _).2 ⟨e, he, rfl, rfl⟩))
  · intro h kind owner hne
    obtain ⟨e, he, rfl, rfl⟩ := (hmember kind owner).1 hne
    exact (hclass _).2 (h e he)

-- ── Documents ────────────────────────────────────────────────────────────────

/-- What the reader takes from a header with labels and from rows of cells. -/
structure Reads (labels : List String) (rows : List (List String)) (doc : Document) : Prop where
  format : doc.format = .tinyV1
  declared : doc.namespaces.labels = labels
  names : doc.classes.map ClassRow.names = classesIn rows
  members : ∀ kind owner,
    (membersUnder kind owner doc.classes).map MemberRow.cells = membersIn kind owner rows

/-- When the reader takes anything. -/
structure Readable (labels : List String) (rows : List (List String)) : Prop where
  declared : labels ≠ []
  labelled : "" ∉ labels
  distinct : labels.Nodup
  shaped : ∀ cells ∈ rows, Shaped labels.length cells
  owned : Owned rows

theorem bare_of_readRows {count : Nat} {lines : List (Nat × List Char)} {rows : List Row}
    (h : readRows count lines = .ok rows) : ∀ c ∈ classRows rows, c.Bare := by
  intro c hc
  obtain ⟨row, hrow, heq⟩ := List.mem_filterMap.1 hc
  obtain ⟨entry, -, hfrom⟩ := readRows_eq_ok h row hrow
  match row, heq, hfrom with
  | .ofClass _, rfl, hfrom => exact hfrom.2

/-- **A flat document that is read** is readable, and taken for what its rows declare. -/
theorem reads_of_read {header : List Char} {labels : List String} {later : List (List Char)}
    (hheader : Text.cells header = "v1" :: labels) {first : Nat} {doc : Document}
    (h : read header (Text.numberFrom first later) = .ok doc) :
    Readable labels (rowsIn later) ∧ Reads labels (rowsIn later) doc := by
  obtain ⟨namespaces, hns, h⟩ := Outcome.bind_eq_ok.1 h
  obtain ⟨rows, hrows, h⟩ := Outcome.bind_eq_ok.1 h
  obtain ⟨classes, hclasses, h⟩ := Outcome.bind_eq_ok.1 h
  cases h
  rw [hheader] at hns
  obtain ⟨hlabels, hdeclared, hempty, hnodup⟩ := Namespaces.declare_eq_ok_iff.1 hns
  have hbare := bare_of_readRows hrows
  obtain ⟨hcells, hshaped⟩ := cells_of_readRows hrows
  obtain ⟨howned, rfl⟩ := giveAll_eq_ok_iff.1 hclasses
  rw [Text.map_snd_numberFrom] at hcells hshaped
  rw [Namespaces.size, hlabels] at hshaped
  have hfirst : FirstHolds (classRows rows) :=
    List.pairwise_of_forall_mem_list fun _ _ c hc _ => hbare c hc
  constructor
  · exact ⟨hdeclared, hempty, hnodup, hshaped, hcells ▸ (owned_iff rows).2 howned⟩
  · refine ⟨rfl, hlabels, ?_, fun kind owner => ?_⟩
    · rw [names_giveEach, ← classesIn_cells, hcells]
    · rw [membersUnder_giveEach hfirst howned, membersUnder_of_bare kind fun c hc _ => hbare c hc,
        List.nil_append, ← membersIn_cells, hcells]

/-- A readable document is read. -/
theorem exists_read {header : List Char} {labels : List String} {later : List (List Char)}
    (hheader : Text.cells header = "v1" :: labels) (first : Nat)
    (h : Readable labels (rowsIn later)) :
    ∃ doc, read header (Text.numberFrom first later) = .ok doc := by
  have hns : Namespaces.declare ((Text.cells header).drop 1) = .ok ⟨labels⟩ := by
    rw [hheader]
    exact Namespaces.declare_eq_ok_iff.2 ⟨rfl, h.declared, h.labelled, h.distinct⟩
  obtain ⟨rows, hrows⟩ : ∃ rows,
      readRows labels.length (Text.numberFrom first later) = .ok rows := by
    refine exists_readRows ?_
    rw [Text.map_snd_numberFrom]
    exact h.shaped
  have hcells := (cells_of_readRows hrows).1
  rw [Text.map_snd_numberFrom] at hcells
  have howned := (owned_iff rows).1 (hcells ▸ h.owned)
  refine ⟨⟨.tinyV1, ⟨labels⟩, giveEach (memberRows rows) (classRows rows)⟩, ?_⟩
  refine Outcome.bind_eq_ok.2 ⟨⟨labels⟩, hns, Outcome.bind_eq_ok.2 ⟨rows, hrows, ?_⟩⟩
  exact Outcome.bind_eq_ok.2 ⟨_, giveAll_eq_giveEach howned, rfl⟩

/-- The rows of a flat document that is loaded: readable, and rows of one class or of one member
    say the same, and the descriptors of members are complete. -/
structure Acceptable (labels : List String) (rows : List (List String)) : Prop extends
    Readable labels rows where
  oneClass : OnePerKey firstOf (classesIn rows)
  oneMember : ∀ kind owner, OnePerKey keyOf (membersIn kind owner rows)
  complete : ∀ kind owner, ∀ cells ∈ membersIn kind owner rows, Descriptor.Complete (firstOf cells)

/-- What a flat document is loaded with: the class names in the order of their first rows, under
    first names that differ; in each class the members of its owner, in the order of their first
    rows; and the descriptors in all namespaces. -/
structure Content (labels : List String) (rows : List (List String)) (catalog : Catalog) :
    Prop where
  format : catalog.format = .tinyV1
  declared : catalog.namespaces.labels = labels
  names : catalog.classes.map ClassEntry.names = (classesIn rows).eraseDups
  distinct : (catalog.classes.map (·.name 0)).Nodup
  members : ∀ c ∈ catalog.classes, ∀ kind, (c.members kind).map (fun m => m.descriptor 0 :: m.names)
    = (membersIn kind (c.name 0) rows).eraseDups
  descriptors : ∀ c ∈ catalog.classes, ∀ kind, ∀ m ∈ c.members kind,
    m.descriptors.length = labels.length ∧ ∀ i < labels.length,
      Descriptor.renameClasses (catalog.classNames 0 i).get? (m.descriptor 0) = .ok (m.descriptor i)

/-- A document that has been read has classes exactly when its rows agree and their descriptors
    are complete. -/
theorem Reads.exists_entries_iff {labels : List String} {rows : List (List String)}
    {doc : Document} {test : MemberKind → MemberRow → Prop} (h : Reads labels rows doc)
    (hrows : ∀ c ∈ doc.classes, c.Good doc.namespaces.size test)
    (hlabels : 0 < doc.namespaces.size) :
    (∃ classes, doc.entries = .ok classes)
      ↔ (OnePerKey firstOf (classesIn rows)
          ∧ ∀ kind owner, OnePerKey keyOf (membersIn kind owner rows))
        ∧ ∀ kind owner, ∀ cells ∈ membersIn kind owner rows,
            Descriptor.Complete (firstOf cells) := by
  rw [Document.exists_entries_iff hrows hlabels, h.names]
  refine and_congr (and_congr_right fun _ => ?_) ?_
  · refine forall₂_congr fun kind owner => ?_
    rw [h.members kind owner]
  · refine forall₂_congr fun kind owner => ?_
    rw [← h.members kind owner, List.forall_mem_map]
    rfl

end Flat

theorem Document.read_flat {text : String} {header : List Char} {labels : List String}
    {later : List (List Char)} (hlines : Text.lines text.toList = header :: later)
    (hheader : Text.cells header = "v1" :: labels) :
    Document.read text = Flat.read header (Text.numberFrom 2 later) := by
  have hnumbered : Text.numberedLines text.toList = (1, header) :: Text.numberFrom 2 later := by
    rw [Text.numberedLines, hlines]
    rfl
  have hformat : Format.detect ((1, header) :: Text.numberFrom 2 later) = .ok .tinyV1 := by
    rw [Format.detect, hheader]
    rfl
  rw [Document.read, hnumbered, hformat]
  rfl

namespace Flat

/-- The text is a flat document with these labels and rows. -/
def Holds (text : String) (labels : List String) (rows : List (List String)) : Prop :=
  ∃ header later, Text.lines text.toList = header :: later
    ∧ Text.cells header = "v1" :: labels ∧ rowsIn later = rows

variable {text : String} {labels : List String} {rows : List (List String)}

/-- **When a flat document is loaded.** -/
theorem Holds.exists_load_iff (h : Holds text labels rows) :
    (∃ catalog, Catalog.load text = .ok catalog) ↔ Acceptable labels rows := by
  obtain ⟨header, later, hlines, hheader, rfl⟩ := h
  have hread := Document.read_flat hlines hheader
  constructor
  · rintro ⟨catalog, hload⟩
    obtain ⟨doc, hdoc, hentries, -⟩ := Catalog.load_eq_ok_iff.1 hload
    obtain ⟨hdeclared, -, -, hgood⟩ := Document.read_eq_ok hdoc
    obtain ⟨hreadable, hreads⟩ := reads_of_read hheader (hread ▸ hdoc)
    obtain ⟨⟨hclass, hmember⟩, hcomplete⟩ :=
      (hreads.exists_entries_iff hgood (List.length_pos_iff.2 hdeclared)).1 ⟨_, hentries⟩
    exact ⟨hreadable, hclass, hmember, hcomplete⟩
  · rintro ⟨hreadable, hclass, hmember, hcomplete⟩
    obtain ⟨doc, hdoc⟩ := exists_read hheader 2 hreadable
    obtain ⟨-, hreads⟩ := reads_of_read hheader hdoc
    rw [← hread] at hdoc
    obtain ⟨hdeclared, -, -, hgood⟩ := Document.read_eq_ok hdoc
    obtain ⟨classes, hentries⟩ :=
      (hreads.exists_entries_iff hgood (List.length_pos_iff.2 hdeclared)).2
        ⟨⟨hclass, hmember⟩, hcomplete⟩
    refine ⟨⟨doc.format, doc.namespaces, classes, Digest.fingerprintOf text⟩, ?_⟩
    exact Catalog.load_eq_ok_iff.2 ⟨doc, hdoc, hentries, rfl, rfl, rfl⟩

/-- **With what a flat document is loaded.** -/
theorem Holds.content_of_load (h : Holds text labels rows) {catalog : Catalog}
    (hload : Catalog.load text = .ok catalog) : Content labels rows catalog := by
  obtain ⟨header, later, hlines, hheader, rfl⟩ := h
  obtain ⟨doc, hdoc, hentries, hformat, hns, -⟩ := Catalog.load_eq_ok_iff.1 hload
  have hloaded := Catalog.loadedFrom_of_entries hdoc hentries hns
  obtain ⟨hdeclared, -, -, hgood⟩ := Document.read_eq_ok hdoc
  rw [Document.read_flat hlines hheader] at hdoc
  obtain ⟨-, hreads⟩ := reads_of_read hheader hdoc
  have hlabels : catalog.namespaces.labels = labels := by
    rw [hns, hreads.declared]
  have hlists := Document.lists_of_entries (hns ▸ hgood) (hns ▸ List.length_pos_iff.2 hdeclared)
    hentries hns
  have hsize : catalog.namespaces.size = labels.length := congrArg List.length hlabels
  refine ⟨hformat.trans hreads.format, hlabels, ?_, hloaded.classNames, ?_, ?_⟩
  · rw [hlists.names, hreads.names]
  · intro c hc kind
    have hname : c.name 0 = firstOf c.names := names_getD_zero c.names
    rw [hname, ← hreads.members, ← hlists.members c hc kind]
    rfl
  · intro c hc kind m hm
    refine ⟨(hloaded.members c hc kind m hm).descriptors.1.trans hsize, fun i hi => ?_⟩
    obtain ⟨row, -, hrenders⟩ := hloaded.rows c hc kind m hm
    rw [hrenders.literal]
    exact hrenders.renamed i (hsize ▸ hi)

-- ── The order of rows ────────────────────────────────────────────────────────

/-- Lists that are read alike are the same where the reading tells items apart. -/
theorem eq_of_map_eq {α γ : Type} {f : α → γ} {xs ys : List α} (h : xs.map f = ys.map f)
    (hinj : ∀ x ∈ xs, ∀ y ∈ ys, f x = f y → x = y) : xs = ys := by
  induction xs generalizing ys with
  | nil => exact (List.map_eq_nil_iff.1 h.symm).symm
  | cons x xs ih =>
      cases ys with
      | nil => exact nomatch h
      | cons y ys =>
          obtain ⟨hxy, hlater⟩ := List.cons.inj h
          rw [hinj x List.mem_cons_self y List.mem_cons_self hxy,
            ih hlater fun x' hx' y' hy' =>
              hinj x' (List.mem_cons_of_mem _ hx') y' (List.mem_cons_of_mem _ hy')]

/-- The rows say all about the classes. -/
theorem Content.classes_eq {catalog catalog' : Catalog} (h : Content labels rows catalog)
    (h' : Content labels rows catalog') : catalog'.classes = catalog.classes := by
  have hnames : catalog'.classes.map ClassEntry.names = catalog.classes.map ClassEntry.names :=
    h'.names.trans h.names.symm
  have htables : ∀ i, catalog'.classNames 0 i = catalog.classNames 0 i := by
    intro i
    have hpairs := congrArg (List.map fun names => (names.getD 0 "", names.getD i "")) hnames
    rw [List.map_map, List.map_map] at hpairs
    exact congrArg SortedMap.ofList hpairs
  refine eq_of_map_eq hnames fun c' hc' c hc heq => ?_
  have hname : c'.name 0 = c.name 0 := congrArg (List.getD · 0 "") heq
  have hmembers : ∀ kind, c'.members kind = c.members kind := by
    intro kind
    have hcells := h'.members c' hc' kind
    rw [hname, ← h.members c hc kind] at hcells
    refine eq_of_map_eq hcells fun m' hm' m hm hsame => ?_
    obtain ⟨hliteral, hmnames⟩ := List.cons.inj hsame
    obtain ⟨hlen', hrenamed'⟩ := h'.descriptors c' hc' kind m' hm'
    obtain ⟨hlen, hrenamed⟩ := h.descriptors c hc kind m hm
    -- each descriptor is the renaming of the declared one through the same table
    have hdescriptors : m'.descriptors = m.descriptors := by
      refine List.ext_getElem (hlen'.trans hlen.symm) fun i hi' hi => ?_
      have hwritten' := hrenamed' i (hlen' ▸ hi')
      rw [htables i, hliteral, hrenamed i (hlen ▸ hi)] at hwritten'
      have hsame := (Except.ok.inj hwritten').symm
      rwa [Member.descriptor, Member.descriptor, List.getD_eq_getElem _ _ hi',
        List.getD_eq_getElem _ _ hi] at hsame
    obtain ⟨names, descriptors⟩ := m
    obtain ⟨names', descriptors'⟩ := m'
    exact congrArg₂ Member.mk hmnames hdescriptors
  have hfields := hmembers .field
  have hmethods := hmembers .method
  obtain ⟨names, fields, methods⟩ := c
  obtain ⟨names', fields', methods'⟩ := c'
  dsimp only [ClassEntry.members] at heq hfields hmethods
  rw [heq, hfields, hmethods]

/-- The rows of two documents agree: they are the same up to their order, and in the same order
    stand the class rows, and the member rows of each owner and kind. -/
structure SameOrder (rows rows' : List (List String)) : Prop where
  perm : rows'.Perm rows
  classes : classesIn rows' = classesIn rows
  members : ∀ kind owner, membersIn kind owner rows' = membersIn kind owner rows

theorem SameOrder.acceptable {rows' : List (List String)} (h : SameOrder rows rows')
    (hrows : Acceptable labels rows) : Acceptable labels rows' := by
  obtain ⟨⟨hdeclared, hlabelled, hdistinct, hshaped, howned⟩, hclass, hmember, hcomplete⟩ := hrows
  refine ⟨⟨hdeclared, hlabelled, hdistinct, fun cells hcells => ?_, ?_⟩, ?_, ?_, ?_⟩
  · exact hshaped cells (h.perm.mem_iff.1 hcells)
  · intro kind owner
    rw [h.members, h.classes]
    exact howned kind owner
  · rw [h.classes]
    exact hclass
  · intro kind owner
    rw [h.members]
    exact hmember kind owner
  · intro kind owner
    rw [h.members]
    exact hcomplete kind owner

theorem SameOrder.content {rows' : List (List String)} {catalog : Catalog}
    (h : SameOrder rows rows') (hrows : Content labels rows' catalog) :
    Content labels rows catalog := by
  refine { hrows with names := ?_, members := fun c hc kind => ?_ }
  · rw [hrows.names, h.classes]
  · rw [hrows.members c hc kind, h.members]

end Flat

/-- **Flat documents.** A flat text is loaded exactly when its labels and rows are acceptable;
    then the catalog has the content that they declare; and texts whose rows differ only in the
    places of member rows, but not in the order of those of one owner and kind, are loaded
    alike. -/
theorem Catalog.load_flat_iff {text : String} {labels : List String} {rows : List (List String)}
    (h : Flat.Holds text labels rows) :
    ((∃ catalog, load text = .ok catalog) ↔ Flat.Acceptable labels rows)
      ∧ (∀ catalog, load text = .ok catalog → Flat.Content labels rows catalog)
      ∧ ∀ text' rows', Flat.Holds text' labels rows' → Flat.SameOrder rows rows' →
          ∀ catalog, load text = .ok catalog → ∃ catalog', load text' = .ok catalog'
            ∧ catalog'.namespaces = catalog.namespaces ∧ catalog'.classes = catalog.classes := by
  refine ⟨h.exists_load_iff, fun catalog hload => h.content_of_load hload, ?_⟩
  intro text' rows' h' hsame catalog hload
  obtain ⟨catalog', hload'⟩ :=
    h'.exists_load_iff.2 (hsame.acceptable (h.exists_load_iff.1 ⟨catalog, hload⟩))
  have hcontent := h.content_of_load hload
  have hcontent' := hsame.content (h'.content_of_load hload')
  refine ⟨catalog', hload', ?_, hcontent.classes_eq hcontent'⟩
  exact congrArg Namespaces.mk (hcontent'.declared.trans hcontent.declared.symm)

/-- A field before the row of its class, a class and a field that are declared twice; and the
    same rows with the members at the end. -/
theorem Catalog.load_flat_iff_moved :
    let early : List (List String) := [["FIELD", "x", "Lx;", "n", "o"], ["CLASS", "x", "P"],
      ["CLASS", "x", "P"], ["FIELD", "x", "Lx;", "n", "o"]]
    let late : List (List String) := [["CLASS", "x", "P"], ["CLASS", "x", "P"],
      ["FIELD", "x", "Lx;", "n", "o"], ["FIELD", "x", "Lx;", "n", "o"]]
    ∃ catalog catalog',
      load "v1\ta\tb\nFIELD\tx\tLx;\tn\to\nCLASS\tx\tP\n#\nCLASS\tx\tP\nFIELD\tx\tLx;\tn\to\n"
          = .ok catalog
        ∧ Flat.Acceptable ["a", "b"] early
        ∧ catalog.classes = [⟨["x", "P"], [⟨["n", "o"], ["Lx;", "LP;"]⟩], []⟩]
        ∧ load "v1\ta\tb\nCLASS\tx\tP\nCLASS\tx\tP\nFIELD\tx\tLx;\tn\to\nFIELD\tx\tLx;\tn\to\n"
          = .ok catalog'
        ∧ Flat.SameOrder early late ∧ catalog'.classes = catalog.classes := by
  intro early late
  have hholds : Flat.Holds
      "v1\ta\tb\nFIELD\tx\tLx;\tn\to\nCLASS\tx\tP\n#\nCLASS\tx\tP\nFIELD\tx\tLx;\tn\to\n"
      ["a", "b"] early := ⟨_, _, rfl, rfl, rfl⟩
  have hholds' : Flat.Holds
      "v1\ta\tb\nCLASS\tx\tP\nCLASS\tx\tP\nFIELD\tx\tLx;\tn\to\nFIELD\tx\tLx;\tn\to\n"
      ["a", "b"] late := ⟨_, _, rfl, rfl, rfl⟩
  have hsame : Flat.SameOrder early late := by
    refine ⟨by decide, rfl, fun kind owner => ?_⟩
    by_cases howner : "x" = owner <;> cases kind
      <;> simp [early, late, Flat.membersIn, Flat.memberWord, howner]
  obtain ⟨hiff, -, hmoved⟩ := load_flat_iff hholds
  obtain ⟨catalog', hload', -, hclasses⟩ := hmoved _ _ hholds' hsame _ rfl
  exact ⟨_, catalog', rfl, hiff.1 ⟨_, rfl⟩, rfl, hload', hsame, hclasses⟩

end Nomenclator.Naming
