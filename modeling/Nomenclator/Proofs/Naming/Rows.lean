import Mathlib.Data.List.Nodup
import Nomenclator.Naming.Catalog
import Nomenclator.Proofs.Outcome
import Nomenclator.Proofs.Text.Lines

/-! # Rows — what the two readers take from a text

    Whatever the layout of a document, a reader that succeeds gives rows of one
    shape: as many names as there are labels, none of them empty, and member rows
    with a descriptor.  And it makes nothing up: every member row is the content of
    a line of the text (`Declares`), after unescaping where the document asks for
    it.

    * `readNames` and `Namespaces.declare` are opened once, here;
    * the flat reader hands read rows to classes, so it only moves rows around;
    * the nested reader is a fold over lines; its invariant fixes the escaping flag
      to the value that it will have at the end of the properties. -/

namespace Nomenclator.Naming

-- ── Labels and names ─────────────────────────────────────────────────────────

/-- Labels in which no fault is found are not empty and differ from each other and from
    those before them. -/
theorem Namespaces.firstFault_eq_none {earlier labels : List String}
    (h : firstFault earlier labels = none) :
    "" ∉ labels ∧ labels.Nodup ∧ ∀ label ∈ labels, label ∉ earlier := by
  induction labels generalizing earlier with
  | nil => exact ⟨List.not_mem_nil, List.nodup_nil, fun _ hl => nomatch hl⟩
  | cons label later ih =>
      simp only [firstFault] at h
      by_cases hempty : label = ""
      · rw [if_pos hempty] at h
        exact nomatch h
      · rw [if_neg hempty] at h
        by_cases hrepeat : label ∈ earlier
        · rw [if_pos hrepeat] at h
          exact nomatch h
        · rw [if_neg hrepeat] at h
          obtain ⟨hne, hnodup, hnew⟩ := ih h
          refine ⟨?_, ?_, ?_⟩
          · intro hmem
            rcases List.mem_cons.1 hmem with heq | hmem
            · exact hempty heq.symm
            · exact hne hmem
          · refine List.nodup_cons.2 ⟨fun hmem => ?_, hnodup⟩
            exact hnew label hmem (List.mem_append_right _ List.mem_cons_self)
          · intro l hl
            rcases List.mem_cons.1 hl with rfl | hl
            · exact hrepeat
            · exact fun he => hnew l hl (List.mem_append_left _ he)

/-- The labels that a header declares: at least one, none empty, none twice. -/
theorem Namespaces.declare_eq_ok {labels : List String} {ns : Namespaces}
    (h : declare labels = .ok ns) :
    ns.labels = labels ∧ labels ≠ [] ∧ "" ∉ labels ∧ labels.Nodup := by
  rw [declare] at h
  by_cases hempty : labels.isEmpty
  · rw [if_pos hempty] at h
    exact nomatch h
  · rw [if_neg hempty] at h
    cases hfault : firstFault [] labels with
    | some fault => rw [hfault] at h; exact nomatch h
    | none =>
        rw [hfault] at h
        cases h
        obtain ⟨hne, hnodup, -⟩ := firstFault_eq_none hfault
        exact ⟨rfl, fun hnil => hempty (hnil ▸ rfl), hne, hnodup⟩

/-- A resolved label is the one at the position found. -/
theorem Namespaces.resolve_lt {ns : Namespaces} {label : String} {i : Nat}
    (h : ns.resolve label = .ok i) : i < ns.size := by
  rw [resolve] at h
  cases hidx : ns.labels.idxOf? label with
  | none => rw [hidx] at h; exact nomatch h
  | some index =>
      rw [hidx] at h
      cases h
      exact (List.findIdx?_eq_some_iff_getElem.1 hidx).1

theorem firstMissing_eq_none {column : Nat} {names : List String}
    (h : firstMissing column names = none) : "" ∉ names := by
  induction names generalizing column with
  | nil => exact List.not_mem_nil
  | cons name later ih =>
      simp only [firstMissing] at h
      by_cases hempty : name = ""
      · rw [if_pos hempty] at h
        exact nomatch h
      · rw [if_neg hempty] at h
        intro hmem
        rcases List.mem_cons.1 hmem with heq | hmem
        · exact hempty heq.symm
        · exact ih h hmem

/-- Names that are read are the cells themselves: one per namespace, none empty. -/
theorem readNames_eq_ok {count line : Nat} {cells names : List String}
    (h : readNames count line cells = .ok names) :
    names = cells ∧ cells.length = count ∧ "" ∉ cells := by
  rw [readNames] at h
  by_cases hlen : cells.length ≠ count
  · rw [if_pos hlen] at h
    exact nomatch h
  · rw [if_neg hlen] at h
    cases hmissing : firstMissing 1 cells with
    | some column => rw [hmissing] at h; exact nomatch h
    | none =>
        rw [hmissing] at h
        cases h
        exact ⟨rfl, not_not.1 hlen, firstMissing_eq_none hmissing⟩

-- ── The shape of rows ────────────────────────────────────────────────────────

/-- The member rows of one kind. -/
def ClassRow.members (c : ClassRow) : MemberKind → List MemberRow
  | .field => c.fields
  | .method => c.methods

theorem ClassRow.members_addMember (c : ClassRow) (kind other : MemberKind) (m : MemberRow) :
    (c.addMember kind m).members other
      = if other = kind then c.members other ++ [m] else c.members other := by
  cases kind <;> cases other <;> rfl

theorem ClassRow.names_addMember (c : ClassRow) (kind : MemberKind) (m : MemberRow) :
    (c.addMember kind m).names = c.names := by
  cases kind <;> rfl

/-- One name per namespace, none empty. -/
def FullNames (count : Nat) (names : List String) : Prop := names.length = count ∧ "" ∉ names

/-- A member row with all its names and a descriptor. -/
structure MemberRow.Shaped (count : Nat) (m : MemberRow) : Prop where
  names : FullNames count m.names
  descriptor : m.descriptor ≠ ""

/-- A class row with all its names, whose member rows are shaped and pass a test. -/
structure ClassRow.Good (count : Nat) (test : MemberKind → MemberRow → Prop) (c : ClassRow) :
    Prop where
  names : FullNames count c.names
  members : ∀ kind, ∀ m ∈ c.members kind, m.Shaped count ∧ test kind m

/-- A class row with no members yet. -/
theorem ClassRow.Good.ofNames {count line : Nat} {test : MemberKind → MemberRow → Prop}
    {names : List String} (h : FullNames count names) :
    ClassRow.Good count test { line, names } where
  names := h
  members := by
    intro kind m hm
    cases kind <;> exact nomatch hm

/-- A good row stays good with one more good member. -/
theorem ClassRow.Good.addMember {count : Nat} {test : MemberKind → MemberRow → Prop}
    {c : ClassRow} {kind : MemberKind} {m : MemberRow} (h : c.Good count test)
    (hm : m.Shaped count) (htest : test kind m) : (c.addMember kind m).Good count test where
  names := by
    rw [ClassRow.names_addMember]
    exact h.names
  members := by
    intro other m' hm'
    rw [ClassRow.members_addMember] at hm'
    by_cases hkind : other = kind
    · rw [if_pos hkind] at hm'
      rcases List.mem_append.1 hm' with hm' | hm'
      · exact h.members other m' hm'
      · obtain rfl := List.mem_singleton.1 hm'
        exact ⟨hm, hkind ▸ htest⟩
    · rw [if_neg hkind] at hm'
      exact h.members other m' hm'

-- ── Flat documents ───────────────────────────────────────────────────────────

namespace Flat

/-- The word that starts the row of a member. -/
def memberWord : MemberKind → String
  | .field => "FIELD"
  | .method => "METHOD"

/-- The line holds a member row: the word of its kind, an owner, its descriptor, its names. -/
def Declares (line : List Char) (kind : MemberKind) (m : MemberRow) : Prop :=
  ∃ owner, Text.cells line = memberWord kind :: owner :: m.descriptor :: m.names

/-- What is known of a row that was read off a line. -/
def Row.ReadFrom (count number : Nat) (line : List Char) : Row → Prop
  | .ofClass c => FullNames count c.names ∧ c.fields = [] ∧ c.methods = []
  | .ofMember kind _ m => m.Shaped count ∧ m.line = number ∧ Declares line kind m

theorem readMember_eq_ok {count number : Nat} (kind : MemberKind) {line : List Char}
    {cells : List String} {row : Row} (hcells : Text.cells line = memberWord kind :: cells)
    (h : readMember count number kind (memberWord kind) cells = .ok row) :
    row.ReadFrom count number line := by
  match cells, hcells, h with
  | owner :: descriptor :: names, hcells, h =>
      simp only [readMember] at h
      by_cases hlen : names.length ≠ count
      · rw [if_pos hlen] at h
        exact nomatch h
      rw [if_neg hlen] at h
      by_cases howner : owner = ""
      · rw [if_pos howner] at h
        exact nomatch h
      rw [if_neg howner] at h
      by_cases hdesc : descriptor = ""
      · rw [if_pos hdesc] at h
        exact nomatch h
      rw [if_neg hdesc] at h
      obtain ⟨read, hread, rfl⟩ := Outcome.map_eq_ok.1 h
      obtain ⟨rfl, hfull⟩ := readNames_eq_ok hread
      exact ⟨⟨hfull, hdesc⟩, rfl, owner, hcells⟩
  | [], _, h => exact nomatch h
  | [_], _, h => exact nomatch h

/-- A row that is read is what its line says. -/
theorem readRow_eq_ok {count number : Nat} {line : List Char} {row : Row}
    (h : readRow count number line = .ok row) : row.ReadFrom count number line := by
  rw [readRow] at h
  split at h
  · next names hcells =>
      obtain ⟨read, hread, rfl⟩ := Outcome.map_eq_ok.1 h
      obtain ⟨rfl, hfull⟩ := readNames_eq_ok hread
      exact ⟨hfull, rfl, rfl⟩
  · next cells hcells => exact readMember_eq_ok .field hcells h
  · next cells hcells => exact readMember_eq_ok .method hcells h
  · exact nomatch h
  · exact nomatch h

/-- Every row that is read comes from one of the lines. -/
theorem readRows_eq_ok {count : Nat} {lines : List (Nat × List Char)} {rows : List Row}
    (h : readRows count lines = .ok rows) :
    ∀ row ∈ rows, ∃ entry ∈ lines, row.ReadFrom count entry.1 entry.2 := by
  induction lines generalizing rows with
  | nil =>
      cases h
      exact fun row hrow => nomatch hrow
  | cons entry later ih =>
      obtain ⟨number, line⟩ := entry
      simp only [readRows] at h
      by_cases hrow : isRow line
      · rw [if_pos hrow] at h
        obtain ⟨first, hfirst, h⟩ := Outcome.bind_eq_ok.1 h
        obtain ⟨rest, hrest, h⟩ := Outcome.bind_eq_ok.1 h
        cases h
        intro row hmem
        rcases List.mem_cons.1 hmem with rfl | hmem
        · exact ⟨(number, line), List.mem_cons_self, readRow_eq_ok hfirst⟩
        · obtain ⟨e, he, hread⟩ := ih hrest row hmem
          exact ⟨e, List.mem_cons_of_mem _ he, hread⟩
      · rw [if_neg hrow] at h
        intro row hmem
        obtain ⟨e, he, hread⟩ := ih h row hmem
        exact ⟨e, List.mem_cons_of_mem _ he, hread⟩

/-- Giving a good member to its class keeps all classes good. -/
theorem good_giveTo {count : Nat} {test : MemberKind → MemberRow → Prop} {owner : String}
    {kind : MemberKind} {m : MemberRow} {classes classes' : List ClassRow}
    (hm : m.Shaped count) (htest : test kind m) (hgood : ∀ c ∈ classes, c.Good count test)
    (h : giveTo owner kind m classes = some classes') : ∀ c ∈ classes', c.Good count test := by
  induction classes generalizing classes' with
  | nil => exact nomatch h
  | cons c later ih =>
      simp only [giveTo] at h
      by_cases hname : c.firstName = owner
      · rw [if_pos hname] at h
        cases h
        intro c' hc'
        rcases List.mem_cons.1 hc' with rfl | hc'
        · exact (hgood c List.mem_cons_self).addMember hm htest
        · exact hgood c' (List.mem_cons_of_mem _ hc')
      · rw [if_neg hname] at h
        obtain ⟨rest, hrest, rfl⟩ := Option.map_eq_some_iff.1 h
        intro c' hc'
        rcases List.mem_cons.1 hc' with rfl | hc'
        · exact hgood _ List.mem_cons_self
        · exact ih (fun d hd => hgood d (List.mem_cons_of_mem _ hd)) hrest c' hc'

theorem good_giveAll {count : Nat} {test : MemberKind → MemberRow → Prop}
    {members : List (MemberKind × String × MemberRow)} {classes classes' : List ClassRow}
    (hmembers : ∀ e ∈ members, e.2.2.Shaped count ∧ test e.1 e.2.2)
    (hgood : ∀ c ∈ classes, c.Good count test) (h : giveAll classes members = .ok classes') :
    ∀ c ∈ classes', c.Good count test := by
  induction members generalizing classes with
  | nil =>
      cases h
      exact hgood
  | cons entry later ih =>
      obtain ⟨kind, owner, m⟩ := entry
      obtain ⟨hm, htest⟩ := hmembers _ List.mem_cons_self
      simp only [giveAll] at h
      cases hgive : giveTo owner kind m classes with
      | none => rw [hgive] at h; exact nomatch h
      | some given =>
          rw [hgive] at h
          exact ih (fun e he => hmembers e (List.mem_cons_of_mem _ he))
            (good_giveTo hm htest hgood hgive) h

/-- **A flat document.** Its labels are declared by the header, and its rows by the lines of
    the body. -/
theorem read_eq_ok {header : List Char} {body : List (Nat × List Char)} {doc : Document}
    (h : read header body = .ok doc) :
    Namespaces.declare ((Text.cells header).drop 1) = .ok doc.namespaces
      ∧ ∀ c ∈ doc.classes, c.Good doc.namespaces.size
          fun kind m => ∃ line, (m.line, line) ∈ body ∧ Declares line kind m := by
  obtain ⟨namespaces, hns, h⟩ := Outcome.bind_eq_ok.1 h
  obtain ⟨rows, hrows, h⟩ := Outcome.bind_eq_ok.1 h
  obtain ⟨classes, hclasses, h⟩ := Outcome.bind_eq_ok.1 h
  cases h
  have hread := readRows_eq_ok hrows
  refine ⟨hns, good_giveAll ?_ ?_ hclasses⟩
  · rintro ⟨kind, owner, m⟩ hmem
    obtain ⟨row, hrow, heq⟩ := List.mem_filterMap.1 hmem
    obtain ⟨entry, hentry, hfrom⟩ := hread row hrow
    match row, heq, hfrom with
    | .ofMember .., rfl, hfrom =>
        obtain ⟨hshaped, hline, hdeclares⟩ := hfrom
        exact ⟨hshaped, entry.2, hline ▸ hentry, hdeclares⟩
  · intro c hmem
    obtain ⟨row, hrow, heq⟩ := List.mem_filterMap.1 hmem
    obtain ⟨entry, -, hfrom⟩ := hread row hrow
    match row, heq, hfrom with
    | .ofClass _, rfl, hfrom =>
        obtain ⟨hfull, hfields, hmethods⟩ := hfrom
        refine ⟨hfull, fun kind m hm => ?_⟩
        cases kind with
        | field => rw [ClassRow.members, hfields] at hm; exact nomatch hm
        | method => rw [ClassRow.members, hmethods] at hm; exact nomatch hm

end Flat

-- ── Nested documents ─────────────────────────────────────────────────────────

/-- Reading an escaped text never loses all of it. -/
theorem Escape.decode_ne_nil {text : List Char} (h : text ≠ []) : decode text ≠ [] := by
  unfold decode
  split
  · exact absurd rfl h
  · split
    · exact List.cons_ne_nil _ _
    · exact List.cons_ne_nil _ _
  · exact List.cons_ne_nil _ _

namespace Nested

/-- The word that starts the row of a member. -/
def memberWord : MemberKind → String
  | .field => "f"
  | .method => "m"

/-- The text that a cell stands for. -/
def unescape (escaped : Bool) (cell : String) : String :=
  if escaped then String.ofList (Escape.decode cell.toList) else cell

/-- Does a property of the document say that names are escaped? Properties are the rows at
    depth one before the first row of another depth. -/
def escapes : List (Nat × List Char) → Bool
  | [] => false
  | (_, line) :: later =>
    if !isRow line then escapes later
    else if depth line == 1 then (rowCells line).headD "" == "escaped-names" || escapes later
    else false

/-- The line holds a member row: indented once, the word of its kind, its descriptor and its
    names, as they are after unescaping. -/
def Declares (escaped : Bool) (line : List Char) (kind : MemberKind) (m : MemberRow) : Prop :=
  depth line = 1 ∧ ∃ descriptor names,
    rowCells line = memberWord kind :: descriptor :: names
      ∧ m.descriptor = unescape escaped descriptor ∧ m.names = names.map (unescape escaped)

/-- A cell that is not empty stands for a text that is not empty. -/
theorem unescape_ne_empty {escaped : Bool} {cell : String} (h : cell ≠ "") :
    unescape escaped cell ≠ "" := by
  cases escaped with
  | false => exact h
  | true =>
      intro hempty
      have hnil : cell.toList ≠ [] := by
        intro hnil
        exact h (String.toList_eq_nil_iff.1 hnil)
      have hlist := congrArg String.toList hempty
      rw [unescape, if_pos rfl, String.toList_ofList] at hlist
      exact Escape.decode_ne_nil hnil hlist

theorem fullNames_unescape {escaped : Bool} {count : Nat} {names : List String}
    (h : FullNames count names) : FullNames count (names.map (unescape escaped)) := by
  refine ⟨by rw [List.length_map]; exact h.1, fun hmem => ?_⟩
  obtain ⟨name, hname, hempty⟩ := List.mem_map.1 hmem
  exact unescape_ne_empty (fun heq => h.2 (heq ▸ hname)) hempty

/-- What one row of the body does to the classes: nothing, where it is a comment of a class or
    stands below a member; a new class; or a new member of the class above it. -/
inductive RowStep (count number : Nat) (s : State) (depth : Nat) (cells : List String) :
    State → Prop where
  | skip (s' : State) (heq : s' = s)
      (hword : depth = 1 ∧ cells.headD "" = "c" ∨ 2 ≤ depth ∧ s.inMember = true) :
      RowStep count number s depth cells s'
  | newClass (names : List String) (hdepth : depth = 0) (hcells : cells = "c" :: names)
      (hnames : FullNames count names) :
      RowStep count number s depth cells
        { s with
          inMember := false
          classes := { line := number, names := names.map s.cellText } :: s.classes }
  | newMember (kind : MemberKind) (c : ClassRow) (earlier : List ClassRow) (descriptor : String)
      (names : List String) (hclasses : s.classes = c :: earlier) (hdepth : depth = 1)
      (hcells : cells = memberWord kind :: descriptor :: names) (hdesc : descriptor ≠ "")
      (hnames : FullNames count names) :
      RowStep count number s depth cells
        { s with
          inMember := true
          classes := c.addMember kind
            { line := number
              descriptor := s.cellText descriptor
              names := names.map s.cellText } :: earlier }

theorem addClass_eq_ok {count number : Nat} {s s' : State} {rest : List String}
    (h : s.addClass count number rest = .ok s') :
    RowStep count number s 0 ("c" :: rest) s' := by
  obtain ⟨names, hread, rfl⟩ := Outcome.map_eq_ok.1 h
  obtain ⟨rfl, hfull⟩ := readNames_eq_ok hread
  exact RowStep.newClass _ rfl rfl hfull

theorem addMember_eq_ok {count number : Nat} {s s' : State} {kind : MemberKind}
    {rest : List String} (h : s.addMember count number kind rest = .ok s') :
    RowStep count number s 1 (memberWord kind :: rest) s' := by
  rw [State.addMember] at h
  split at h
  · exact nomatch h
  · next c earlier hclasses =>
      split at h
      · next descriptor names =>
          by_cases hlen : names.length ≠ count
          · rw [if_pos hlen] at h
            exact nomatch h
          rw [if_neg hlen] at h
          by_cases hdesc : descriptor = ""
          · rw [if_pos hdesc] at h
            exact nomatch h
          rw [if_neg hdesc] at h
          obtain ⟨read, hread, rfl⟩ := Outcome.map_eq_ok.1 h
          obtain ⟨rfl, hfull⟩ := readNames_eq_ok hread
          exact RowStep.newMember kind c earlier descriptor _ hclasses rfl rfl hdesc hfull
      · exact nomatch h

/-- The cells of a line are never none. -/
theorem rowCells_ne_nil (line : List Char) : rowCells line ≠ [] := by
  rw [rowCells, Text.cells, Text.pieces]
  intro h
  exact Text.piecesWhere_ne_nil _ _ (List.map_eq_nil_iff.1 h)

/-- A line with a character that is not blank is a row. -/
theorem isRow_of_mem {line : List Char} {c : Char} (hmem : c ∈ line)
    (hc : Text.isBlank c = false) : isRow line = true := by
  have hback := Text.mem_dropWhile (List.mem_reverse.2 (Text.mem_dropWhile hmem hc)) hc
  rw [isRow, Text.trim, Bool.not_eq_true', List.isEmpty_eq_false_iff]
  exact List.ne_nil_of_mem (List.mem_reverse.2 hback)

/-- A row below a member changes nothing. -/
theorem inMember_eq_ok {count number depth : Nat} {s s' : State} {cells : List String} {e : Error}
    (hdepth : 2 ≤ depth)
    (h : (if s.inMember then .ok s else .error e) = (.ok s' : Except Error State)) :
    RowStep count number s depth cells s' := by
  by_cases hin : s.inMember
  · rw [if_pos hin] at h
    exact RowStep.skip _ (Except.ok.inj h).symm (.inr ⟨hdepth, hin⟩)
  · rw [if_neg hin] at h
    exact nomatch h

/-- **One row of the body.** A row that is read does one of three things. -/
theorem readRow_eq_ok {count number depth : Nat} {s s' : State} {cells : List String}
    (hne : cells ≠ []) (h : s.readRow count number depth cells = .ok s') :
    RowStep count number s depth cells s' := by
  obtain ⟨word, rest, rfl⟩ := List.exists_cons_of_ne_nil hne
  simp only [State.readRow, List.headD_cons, List.drop_one, List.tail_cons] at h
  split at h
  · exact addClass_eq_ok h
  · exact addMember_eq_ok h
  · exact addMember_eq_ok h
  · cases h
    exact RowStep.skip _ rfl (.inl ⟨rfl, rfl⟩)
  · exact inMember_eq_ok (by decide) h
  · exact inMember_eq_ok (by decide) h
  · exact inMember_eq_ok (by decide) h
  · exact inMember_eq_ok (by decide) h
  · exact nomatch h

/-- What one line does: nothing, where it is blank; it may raise the flag, where it is a
    property; and a row of the body ends the properties. -/
inductive LineStep (count : Nat) (s : State) (entry : Nat × List Char) : State → Prop where
  | blank (hrow : isRow entry.2 = false) : LineStep count s entry s
  | property (hrow : isRow entry.2 = true) (hin : s.inProperties = true)
      (hdepth : depth entry.2 = 1) :
      LineStep count s entry
        { s with escaped := s.escaped || (rowCells entry.2).headD "" == "escaped-names" }
  | body (s' : State) (hrow : isRow entry.2 = true)
      (hpast : s.inProperties = true → depth entry.2 ≠ 1)
      (hstep : RowStep count entry.1 { s with inProperties := false } (depth entry.2)
        (rowCells entry.2) s') :
      LineStep count s entry s'

/-- **One line.** A line that is read does one of three things. -/
theorem readLine_eq_ok {count : Nat} {s s' : State} {entry : Nat × List Char}
    (h : s.readLine count entry = .ok s') : LineStep count s entry s' := by
  obtain ⟨number, line⟩ := entry
  simp only [State.readLine] at h
  by_cases hrow : isRow line = true
  · rw [if_neg (by rw [hrow]; exact Bool.false_ne_true)] at h
    by_cases hprop : (s.inProperties && depth line == 1) = true
    · rw [if_pos hprop] at h
      cases h
      obtain ⟨hin, hdepth⟩ := Bool.and_eq_true_iff.1 hprop
      exact LineStep.property hrow hin (beq_iff_eq.1 hdepth)
    · rw [if_neg hprop] at h
      refine LineStep.body s' hrow (fun hin hdepth => hprop ?_)
        (readRow_eq_ok (rowCells_ne_nil line) h)
      exact Bool.and_eq_true_iff.2 ⟨hin, beq_iff_eq.2 hdepth⟩
  · have hblank : isRow line = false := Bool.eq_false_iff.2 hrow
    rw [if_pos (by rw [hblank]; rfl)] at h
    cases h
    exact LineStep.blank hblank

/-- The invariant of the reader in front of the lines `rest` of a body: `escaped` is what the
    flag will be when the properties have been read, and until then there are no classes. -/
structure Reading (count : Nat) (body : List (Nat × List Char)) (escaped : Bool)
    (rest : List (Nat × List Char)) (s : State) : Prop where
  within : ∀ entry ∈ rest, entry ∈ body
  inside : s.inProperties = true → s.classes = [] ∧ (s.escaped || escapes rest) = escaped
  outside : s.inProperties = false → s.escaped = escaped
  good : ∀ c ∈ s.classes, c.Good count
    fun kind m => ∃ line, (m.line, line) ∈ body ∧ Declares escaped line kind m

/-- A row of the body keeps the invariant. -/
theorem Reading.readRow {count number : Nat} {body rest : List (Nat × List Char)}
    {escaped : Bool} {line : List Char} {s s' : State} (hline : (number, line) ∈ body)
    (h : Reading count body escaped rest s) (hout : s.inProperties = false)
    (hstep : RowStep count number s (depth line) (rowCells line) s') :
    Reading count body escaped rest s' := by
  have hflag : s.cellText = unescape escaped := by
    rw [← h.outside hout]
    rfl
  cases hstep with
  | skip _ heq _ => rw [heq]; exact h
  | newClass names _ _ hnames =>
      refine ⟨h.within, fun hin => absurd (hout.symm.trans hin) Bool.false_ne_true,
        h.outside, ?_⟩
      intro c hc
      rcases List.mem_cons.1 hc with rfl | hc
      · rw [hflag]
        exact ClassRow.Good.ofNames (fullNames_unescape hnames)
      · exact h.good c hc
  | newMember kind c earlier descriptor names hclasses hdepth hcells hdesc hnames =>
      refine ⟨h.within, fun hin => absurd (hout.symm.trans hin) Bool.false_ne_true,
        h.outside, ?_⟩
      intro c' hc'
      rcases List.mem_cons.1 hc' with rfl | hc'
      · have hc : c ∈ s.classes := hclasses ▸ List.mem_cons_self
        rw [hflag]
        refine (h.good c hc).addMember ⟨fullNames_unescape hnames, unescape_ne_empty hdesc⟩ ?_
        exact ⟨line, hline, hdepth, descriptor, names, hcells, rfl, rfl⟩
      · exact h.good c' (hclasses ▸ List.mem_cons_of_mem _ hc')

/-- A line keeps the invariant. -/
theorem Reading.readLine {count : Nat} {body later : List (Nat × List Char)} {escaped : Bool}
    {entry : Nat × List Char} {s s' : State}
    (h : Reading count body escaped (entry :: later) s)
    (hread : s.readLine count entry = .ok s') : Reading count body escaped later s' := by
  have hwithin : ∀ e ∈ later, e ∈ body := fun e he => h.within e (List.mem_cons_of_mem _ he)
  cases readLine_eq_ok hread with
  | blank hrow =>
      refine ⟨hwithin, fun hin => ?_, h.outside, h.good⟩
      have hflag := h.inside hin
      rw [escapes, if_pos (by rw [hrow]; rfl)] at hflag
      exact hflag
  | property hrow hin hdepth =>
      -- the flag may be raised, and it is the flag that was foreseen
      obtain ⟨hclasses, hflag⟩ := h.inside hin
      refine ⟨hwithin, fun _ => ⟨hclasses, ?_⟩, fun hout => ?_, h.good⟩
      · rw [escapes, if_neg (by rw [hrow]; exact Bool.false_ne_true),
          if_pos (beq_iff_eq.2 hdepth)] at hflag
        rw [← hflag, Bool.or_assoc]
      · exact absurd (hout.symm.trans hin) Bool.false_ne_true
  | body _ hrow hpast hstep =>
      -- from here on the flag stays as it is
      have hstart : Reading count body escaped later { s with inProperties := false } := by
        refine ⟨hwithin, fun hin => absurd hin Bool.false_ne_true, fun _ => ?_, h.good⟩
        cases hin : s.inProperties with
        | false => exact h.outside hin
        | true =>
            have hflag := (h.inside hin).2
            rw [escapes, if_neg (by rw [hrow]; exact Bool.false_ne_true),
              if_neg (fun hd => hpast hin (beq_iff_eq.1 hd)), Bool.or_false] at hflag
            exact hflag
      exact hstart.readRow (h.within _ List.mem_cons_self) rfl hstep

/-- The invariant holds after every front of a body that is read. -/
theorem Reading.of_front {count : Nat} {front : List (Nat × List Char)}
    (rest : List (Nat × List Char)) {s : State}
    (h : front.foldlM (State.readLine count) {} = .ok s) :
    Reading count (front ++ rest) (escapes (front ++ rest)) rest s := by
  have hstart : Reading count (front ++ rest) (escapes (front ++ rest)) (front ++ rest) {} :=
    ⟨fun _ he => he, fun _ => ⟨rfl, Bool.false_or _⟩, (fun hout => nomatch hout),
      (fun _ hc => nomatch hc)⟩
  exact Outcome.foldlM_induction
    (fun later => Reading count (front ++ rest) (escapes (front ++ rest)) (later ++ rest))
    (fun _ _ _ _ hi hs => hi.readLine hs) hstart h

/-- A nested document that is read: its header declares labels, and its lines are read one by
    one. -/
theorem exists_run_of_read {header : List Char} {body : List (Nat × List Char)} {doc : Document}
    (h : read header body = .ok doc) :
    Namespaces.declare ((Text.cells header).drop 3) = .ok doc.namespaces
      ∧ ∃ final, body.foldlM (State.readLine doc.namespaces.size) {} = .ok final
          ∧ doc.classes = final.classes.reverse := by
  rw [read] at h
  by_cases hlen : (Text.cells header).length < 4
  · rw [if_pos hlen] at h
    exact nomatch h
  · rw [if_neg hlen] at h
    obtain ⟨-, -, h⟩ := Outcome.bind_eq_ok.1 h
    obtain ⟨namespaces, hns, h⟩ := Outcome.bind_eq_ok.1 h
    obtain ⟨final, hfinal, h⟩ := Outcome.bind_eq_ok.1 h
    cases h
    exact ⟨hns, final, hfinal, rfl⟩

/-- **A nested document.** Its labels are declared by the header, and its rows by the lines of
    the body. -/
theorem read_eq_ok {header : List Char} {body : List (Nat × List Char)} {doc : Document}
    (h : read header body = .ok doc) :
    Namespaces.declare ((Text.cells header).drop 3) = .ok doc.namespaces
      ∧ ∀ c ∈ doc.classes, c.Good doc.namespaces.size
          fun kind m => ∃ line, (m.line, line) ∈ body ∧ Declares (escapes body) line kind m := by
  obtain ⟨hns, final, hfinal, hclasses⟩ := exists_run_of_read h
  have hend := Reading.of_front [] hfinal
  rw [List.append_nil] at hend
  exact ⟨hns, fun c hc => hend.good c (List.mem_reverse.1 (hclasses ▸ hc))⟩

end Nested

-- ── Documents ────────────────────────────────────────────────────────────────

/-- A line of the text declares the member row, in the layout that its first line announces. -/
def Declares (text : String) (kind : MemberKind) (m : MemberRow) : Prop :=
  ∃ header body line, Text.numberedLines text.toList = header :: body ∧ (m.line, line) ∈ body
    ∧ ((Format.detect (header :: body) = .ok .tinyV1 ∧ Flat.Declares line kind m)
      ∨ (Format.detect (header :: body) = .ok .tinyV2
          ∧ Nested.Declares (Nested.escapes body) line kind m))

/-- **What a reader takes from a text.** Labels that are not empty and differ; class rows and
    member rows with all their names; and every member row is declared by a line. -/
theorem Document.read_eq_ok {text : String} {doc : Document} (h : Document.read text = .ok doc) :
    doc.namespaces.labels ≠ [] ∧ "" ∉ doc.namespaces.labels ∧ doc.namespaces.labels.Nodup
      ∧ ∀ c ∈ doc.classes, c.Good doc.namespaces.size (Declares text) := by
  rw [Document.read] at h
  obtain ⟨format, hformat, h⟩ := Outcome.bind_eq_ok.1 h
  cases hlines : Text.numberedLines text.toList with
  | nil => rw [hlines] at h; exact nomatch h
  | cons first body =>
      obtain ⟨number, header⟩ := first
      rw [hlines] at h hformat
      have hlift : ∀ {test : MemberKind → MemberRow → Prop} {count : Nat} {c : ClassRow},
          (∀ kind m, test kind m → Declares text kind m) → c.Good count test →
            c.Good count (Declares text) := fun himp hgood =>
        ⟨hgood.names, fun kind m hm =>
          ⟨(hgood.members kind m hm).1, himp kind m (hgood.members kind m hm).2⟩⟩
      cases format with
      | tinyV1 =>
          obtain ⟨hns, hgood⟩ := Flat.read_eq_ok h
          obtain ⟨hlabels, hne, hempty, hnodup⟩ := Namespaces.declare_eq_ok hns
          rw [hlabels]
          refine ⟨hne, hempty, hnodup, fun c hc => hlift ?_ (hgood c hc)⟩
          rintro kind m ⟨line, hline, hdeclares⟩
          exact ⟨_, body, line, hlines, hline, .inl ⟨hformat, hdeclares⟩⟩
      | tinyV2 =>
          obtain ⟨hns, hgood⟩ := Nested.read_eq_ok h
          obtain ⟨hlabels, hne, hempty, hnodup⟩ := Namespaces.declare_eq_ok hns
          rw [hlabels]
          refine ⟨hne, hempty, hnodup, fun c hc => hlift ?_ (hgood c hc)⟩
          rintro kind m ⟨line, hline, hdeclares⟩
          exact ⟨_, body, line, hlines, hline, .inr ⟨hformat, hdeclares⟩⟩

end Nomenclator.Naming
