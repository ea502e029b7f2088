import Nomenclator.Proofs.Naming.FlatRows
import Nomenclator.Proofs.Naming.NestedMembers

/-! # Drafts — what is written with escaped names is loaded as it was meant

    A draft is a naming document before it is written: labels, classes and members
    with any names at all, and the lines that are to stand between their rows
    without saying anything of names.  It is written nested and escaped.  Its text
    is loaded, and the catalog has the classes and members of the draft, each under
    its names, in their order (`Catalog.load_draft`).

    * **Cells** — an escaped name fits into a cell, and the cell stands for the name;
    * **Remarks** — a line that says nothing leaves the reader as it is;
    * **Rows** — every other line adds its class or member to what has been read;
    * **Joining** — a draft declares nothing twice, so joining leaves its rows alone.

    The header has to be the first line: not even a blank line may stand above it
    (`Catalog.load_blank_above_header`). -/

namespace Nomenclator.Naming

-- ── Escaped cells ────────────────────────────────────────────────────────────

theorem Escape.plain_mark {c m : Char} (h : mark c = some m) :
    m ≠ '\t' ∧ m ≠ '\n' ∧ m ≠ '\r' := by
  unfold mark at h
  split at h <;> cases h <;> decide

theorem Escape.plain_of_mark_eq_none {c : Char} (h : mark c = none) :
    c ≠ '\t' ∧ c ≠ '\n' ∧ c ≠ '\r' := by
  refine ⟨?_, ?_, ?_⟩ <;> rintro rfl <;> exact nomatch h

/-- An escaped text holds no tab and no line end. -/
theorem Escape.plain_encode (text : List Char) :
    ∀ c ∈ encode text, c ≠ '\t' ∧ c ≠ '\n' ∧ c ≠ '\r' := by
  induction text with
  | nil => exact fun c hc => nomatch hc
  | cons first rest ih =>
      intro c hc
      rw [encode] at hc
      cases hmark : mark first with
      | none =>
          rw [hmark] at hc
          rcases List.mem_cons.1 hc with rfl | hc
          · exact plain_of_mark_eq_none hmark
          · exact ih c hc
      | some m =>
          rw [hmark] at hc
          rcases List.mem_cons.1 hc with rfl | hc
          · decide
          · rcases List.mem_cons.1 hc with rfl | hc
            · exact plain_mark hmark
            · exact ih c hc

/-- The cell in which a text is written with escapes. -/
def Cell.escaped (text : String) : Cell where
  text := String.ofList (Escape.encode text.toList)
  plain := by
    rw [String.toList_ofList]
    exact Escape.plain_encode text.toList

/-- The escaped cells of some texts. -/
def Cell.escapedTexts (texts : List String) : List String := Cell.texts (texts.map Cell.escaped)

/-- An escaped cell stands for its text. -/
theorem Cell.unescape_escaped (text : String) :
    Nested.unescape true (Cell.escaped text).text = text := by
  rw [Nested.unescape, if_pos rfl, escaped, String.toList_ofList, Escape.decode_encode,
    String.ofList_toList]

theorem Cell.map_unescape (texts : List String) :
    (Cell.escapedTexts texts).map (Nested.unescape true) = texts := by
  rw [escapedTexts, Cell.texts, List.map_map, List.map_map]
  exact List.map_id'' Cell.unescape_escaped texts

/-- A cell is empty only where its text is. -/
theorem Cell.escaped_ne_empty {text : String} (h : text ≠ "") : (Cell.escaped text).text ≠ "" := by
  intro hempty
  have htext := Cell.unescape_escaped text
  rw [hempty] at htext
  exact h htext.symm

theorem Cell.fullNames_escaped {count : Nat} {names : List String} (h : FullNames count names) :
    FullNames count (Cell.escapedTexts names) := by
  constructor
  · rw [escapedTexts, Cell.texts, List.length_map, List.length_map]
    exact h.1
  · intro hmem
    rw [escapedTexts, Cell.texts, List.map_map] at hmem
    obtain ⟨name, hname, hempty⟩ := List.mem_map.1 hmem
    exact Cell.escaped_ne_empty (fun heq => h.2 (heq ▸ hname)) hempty

theorem fits_escaped {word : String} (hword : ∀ c ∈ word.toList, c ≠ '\t' ∧ c ≠ '\n' ∧ c ≠ '\r')
    (texts : List String) : Fits (word :: Cell.escapedTexts texts) :=
  fits_texts hword (texts.map Cell.escaped)

-- ── Drafts ───────────────────────────────────────────────────────────────────

/-- Where a line stands that is not a row of names: below the header, below the row of a class,
    or below the row of a member. -/
inductive Spot where
  | header
  | ofClass
  | ofMember

/-- The rows that are passed over at a spot, by their indentation and their word. Comments of a
    class may also stand below its members. -/
def Spot.passedOver : Spot → List (Nat × String)
  | .header => []
  | .ofClass => [(1, "c")]
  | .ofMember => [(1, "c"), (2, "p"), (2, "v"), (2, "c"), (3, "c")]

/-- A line that says nothing of names where it stands: a blank line, or a row that is passed
    over, with any further cells. -/
inductive Remark (spot : Spot) where
  | blank (line : List Char) (empty : ∀ c ∈ line, Text.isBlank c = true ∧ c ≠ '\n')
  | row (depth : Nat) (word : String) (passed : (depth, word) ∈ spot.passedOver)
      (cells : List String) (oneLine : ∀ cell ∈ cells, '\n' ∉ cell.toList)

/-- The line as it is written. -/
def Remark.line {spot : Spot} : Remark spot → List Char
  | .blank line _ => line
  | .row depth word _ cells _ => List.replicate depth '\t' ++ Text.row (word :: cells)

/-- A field or method as it is meant, with remarks below its row. -/
structure MemberDraft (count : Nat) where
  kind : MemberKind
  descriptor : String
  described : descriptor ≠ ""
  complete : Descriptor.Complete descriptor
  names : List String
  named : FullNames count names
  remarks : List (Remark .ofMember)

/-- What tells a member from the others of its class. -/
def MemberDraft.key {count : Nat} (m : MemberDraft count) : MemberKind × String × String :=
  (m.kind, firstOf m.names, m.descriptor)

/-- A class as it is meant, with remarks below its row, and its members in their order. -/
structure ClassDraft (count : Nat) where
  names : List String
  named : FullNames count names
  remarks : List (Remark .ofClass)
  members : List (MemberDraft count)
  distinct : (members.map MemberDraft.key).Nodup

/-- A naming document as it is meant, with blank lines before and after the line that declares
    the escapes. -/
structure Draft where
  labels : List String
  declared : labels ≠ []
  labelled : "" ∉ labels
  plain : ∀ label ∈ labels, ∀ c ∈ label.toList, c ≠ '\t' ∧ c ≠ '\n' ∧ c ≠ '\r'
  different : labels.Nodup
  above : List (Remark .header)
  below : List (Remark .header)
  classes : List (ClassDraft labels.length)
  distinct : (classes.map fun c => firstOf c.names).Nodup

section Writing

variable {count : Nat}

/-- The row of a member. -/
def MemberDraft.row (m : MemberDraft count) : List String :=
  "" :: Nested.memberWord m.kind :: Cell.escapedTexts (m.descriptor :: m.names)

def MemberDraft.lines (m : MemberDraft count) : List (List Char) :=
  Text.row m.row :: m.remarks.map Remark.line

/-- The row of a class. -/
def ClassDraft.row (c : ClassDraft count) : List String := "c" :: Cell.escapedTexts c.names

def ClassDraft.lines (c : ClassDraft count) : List (List Char) :=
  Text.row c.row :: (c.remarks.map Remark.line ++ c.members.flatMap MemberDraft.lines)

/-- What a member says: its descriptor, then all its names. -/
def MemberDraft.cells (m : MemberDraft count) : List String := m.descriptor :: m.names

/-- What the members of a kind say. -/
def MemberDraft.contents (members : List (MemberDraft count)) (kind : MemberKind) :
    List (List String) :=
  (members.filter fun m => m.kind = kind).map MemberDraft.cells

/-- What the members of a kind in a class say. -/
def ClassDraft.contents (c : ClassDraft count) (kind : MemberKind) : List (List String) :=
  MemberDraft.contents c.members kind

end Writing

/-- The header of a draft. -/
def Draft.header (draft : Draft) : List String := "tiny" :: "2" :: "0" :: draft.labels

/-- The lines below the header. -/
def Draft.body (draft : Draft) : List (List Char) :=
  draft.above.map Remark.line ++ Text.row ["", "escaped-names"] ::
    (draft.below.map Remark.line ++ draft.classes.flatMap ClassDraft.lines)

/-- The draft as it is written. -/
def Draft.text (draft : Draft) : String :=
  String.ofList (Text.ended (Text.row draft.header :: draft.body))

-- ── Remarks are passed over ──────────────────────────────────────────────────

theorem Spot.exists_word {spot : Spot} {depth : Nat} {word : String}
    (h : (depth, word) ∈ spot.passedOver) :
    ∃ c, word.toList = [c] ∧ c ≠ '\t' ∧ c ≠ '\n' ∧ c ≠ '\r' := by
  cases spot <;> simp only [passedOver, List.mem_cons, List.not_mem_nil, or_false,
    Prod.mk.injEq] at h
  · obtain ⟨-, rfl⟩ := h
    exact ⟨'c', rfl, by decide⟩
  · rcases h with ⟨-, rfl⟩ | ⟨-, rfl⟩ | ⟨-, rfl⟩ | ⟨-, rfl⟩ | ⟨-, rfl⟩ <;>
      exact ⟨_, rfl, by decide⟩

namespace Nested

/-- A line of blank characters is no row. -/
theorem isRow_of_blank {line : List Char} (h : ∀ c ∈ line, Text.isBlank c = true) :
    isRow line = false := by
  have hdrop : line.dropWhile Text.isBlank = [] := List.dropWhile_eq_nil_iff.2 h
  rw [isRow, Text.trim, hdrop]
  rfl

theorem depth_indented (n : Nat) {c : Char} (hc : c ≠ '\t') (rest : List Char) :
    depth (List.replicate n '\t' ++ c :: rest) = n := by
  have htabs : ∀ d ∈ List.replicate n '\t', (d == '\t') = true := fun d hd =>
    beq_iff_eq.2 (List.eq_of_mem_replicate hd)
  rw [depth, List.takeWhile_append_of_pos htabs,
    List.takeWhile_cons_of_neg (by simpa using hc), List.append_nil, List.length_replicate]

theorem rowCells_indented (n : Nat) {c : Char} (hc : c ≠ '\t') (rest : List Char) :
    rowCells (List.replicate n '\t' ++ c :: rest) = Text.cells (c :: rest) := by
  rw [rowCells, depth_indented n hc, List.drop_left' List.length_replicate]

/-- The reader stands at a spot: past the properties below the row of a class, and in a member
    below the row of one. -/
def State.At (s : State) : Spot → Prop
  | .header => True
  | .ofClass => s.inProperties = false
  | .ofMember => s.inProperties = false ∧ s.inMember = true

theorem readRow_of_passedOver {spot : Spot} {s : State} (hs : s.At spot) {depth : Nat}
    {cells : List String} (h : (depth, cells.headD "") ∈ spot.passedOver) (count number : Nat) :
    s.readRow count number depth cells = .ok s := by
  cases spot with
  | header => exact absurd h List.not_mem_nil
  | ofClass =>
      obtain ⟨rfl, hword⟩ := Prod.mk.inj (List.mem_singleton.1 h)
      simp only [State.readRow, hword]
  | ofMember =>
      simp only [Spot.passedOver, List.mem_cons, List.not_mem_nil, or_false, Prod.mk.injEq] at h
      rcases h with ⟨rfl, hword⟩ | ⟨rfl, hword⟩ | ⟨rfl, hword⟩ | ⟨rfl, hword⟩ | ⟨rfl, hword⟩ <;>
        simp only [State.readRow, hword, hs.2, if_true]

/-- A line that is blank or passed over where the reader stands changes nothing. -/
theorem readLine_of_passedOver {spot : Spot} {s : State} (hs : s.At spot) {line : List Char}
    (h : isRow line = false ∨ (depth line, (rowCells line).headD "") ∈ spot.passedOver)
    (count number : Nat) : s.readLine count (number, line) = .ok s := by
  rw [State.readLine]
  dsimp only
  by_cases hrow : isRow line = true
  · have hpassed := h.resolve_left (by rw [hrow]; exact Bool.noConfusion)
    have hpast : s.inProperties = false := by
      cases spot with
      | header => exact absurd hpassed List.not_mem_nil
      | ofClass => exact hs
      | ofMember => exact hs.1
    have hsame : { s with inProperties := false } = s := by rw [← hpast]
    rw [if_neg (by rw [hrow]; exact Bool.false_ne_true), hpast,
      if_neg (by exact Bool.false_ne_true), hsame]
    exact readRow_of_passedOver hs hpassed count number
  · rw [if_pos (by rw [Bool.eq_false_iff.2 hrow]; rfl)]

/-- Reads lines as they are written, counted from a given one. -/
def readLines (count first : Nat) (lines : List (List Char)) (s : State) : Except Error State :=
  (Text.numberFrom first (lines.map Text.dropReturn)).foldlM (State.readLine count) s

theorem readLines_cons (count first : Nat) (line : List Char) (later : List (List Char))
    (s : State) :
    readLines count first (line :: later) s
      = s.readLine count (first, Text.dropReturn line) >>= readLines count (first + 1) later := by
  rw [readLines, List.map_cons, Text.numberFrom_cons, List.foldlM_cons]
  rfl

theorem readLines_append (count first : Nat) (lines later : List (List Char)) (s : State) :
    readLines count first (lines ++ later) s
      = readLines count first lines s >>= readLines count (first + lines.length) later := by
  rw [readLines, List.map_append, Text.numberFrom_append, List.foldlM_append, List.length_map]
  rfl

end Nested

section Remarks

variable {spot : Spot}

/-- What is read of a remark: a blank line, or a row that is passed over. A carriage return at
    the end of its last cell is taken for a part of the line end. -/
theorem Remark.read (r : Remark spot) :
    Nested.isRow (Text.dropReturn r.line) = false
      ∨ (Nested.depth (Text.dropReturn r.line),
          (Nested.rowCells (Text.dropReturn r.line)).headD "") ∈ spot.passedOver := by
  cases r with
  | blank line empty =>
      exact .inl (Nested.isRow_of_blank fun c hc => (empty c (Text.mem_of_mem_dropReturn hc)).1)
  | row depth word passed cells oneLine =>
      right
      obtain ⟨c, hword, htab, -, hreturn⟩ := Spot.exists_word passed
      -- after the word the line ends, or there is a tab
      obtain ⟨rest, hrow, hcells⟩ : ∃ rest,
          Text.dropReturn (List.replicate depth '\t' ++ Text.row (word :: cells))
              = List.replicate depth '\t' ++ c :: rest
            ∧ (Text.cells (c :: rest)).headD "" = word := by
        have hcell : String.ofList [c] = word := by rw [← hword, String.ofList_toList]
        have hpiece : '\t' ∉ [c] := fun hmem => htab (List.mem_singleton.1 hmem).symm
        cases cells with
        | nil =>
            refine ⟨[], ?_, ?_⟩
            · rw [Text.row, List.map_singleton, Text.joinWith, hword,
                Text.dropReturn_append_cons _ hreturn]
              rfl
            · rw [Text.cells, Text.pieces_of_not_mem hpiece]
              exact hcell
        | cons next later =>
            refine ⟨'\t' :: Text.dropReturn (Text.row (next :: later)), ?_, ?_⟩
            · have hline : Text.row (word :: next :: later)
                  = [c] ++ '\t' :: Text.row (next :: later) := by
                rw [← hword]
                exact List.append_assoc _ _ _
              rw [hline, ← List.append_assoc, Text.dropReturn_append_cons _ (by decide),
                List.append_assoc]
              rfl
            · rw [Text.cells]
              show (List.map _ (Text.pieces '\t' ([c] ++ '\t' :: _))).headD "" = word
              rw [Text.pieces_append hpiece]
              exact hcell
      rw [line, hrow, Nested.depth_indented depth htab, Nested.rowCells_indented depth htab, hcells]
      exact passed

theorem Remark.oneLine_line (r : Remark spot) : '\n' ∉ r.line := by
  cases r with
  | blank line empty => exact fun hmem => (empty _ hmem).2 rfl
  | row depth word passed cells oneLine =>
      obtain ⟨c, hword, -, hfeed, -⟩ := Spot.exists_word passed
      intro hmem
      rcases List.mem_append.1 hmem with hmem | hmem
      · exact absurd (List.eq_of_mem_replicate hmem) (by decide)
      · refine Text.not_mem_row (by decide) (fun cell hcell => ?_) hmem
        rcases List.mem_cons.1 hcell with rfl | hcell
        · rw [hword]
          exact fun hmem => hfeed (List.mem_singleton.1 hmem).symm
        · exact oneLine cell hcell

theorem oneLine_remarks (remarks : List (Remark spot)) :
    ∀ line ∈ remarks.map Remark.line, '\n' ∉ line := by
  intro line hline
  obtain ⟨r, -, rfl⟩ := List.mem_map.1 hline
  exact r.oneLine_line

/-- **Remarks are passed over.** -/
theorem readLines_remarks {s : Nested.State} (hs : s.At spot) (count first : Nat)
    (remarks : List (Remark spot)) :
    Nested.readLines count first (remarks.map Remark.line) s = .ok s := by
  induction remarks generalizing first with
  | nil => rfl
  | cons r later ih =>
      rw [List.map_cons, Nested.readLines_cons, Nested.readLine_of_passedOver hs r.read]
      exact ih (first + 1)

end Remarks

-- ── Rows are read ────────────────────────────────────────────────────────────

/-- The reader is past the properties of an escaped document and has read these classes, last
    first. -/
structure Nested.State.Past (s : State) (classes : List ClassRow) : Prop where
  escaped : s.escaped = true
  past : s.inProperties = false
  classes : s.classes = classes

theorem Nested.map_cellText_escaped {s : State} (h : s.escaped = true) (texts : List String) :
    (Cell.escapedTexts texts).map s.cellText = texts := by
  have hcell : s.cellText = unescape true := by
    rw [← h]
    rfl
  rw [hcell, Cell.map_unescape]

theorem ClassRow.contents_addMember (c : ClassRow) (kind other : MemberKind) (m : MemberRow) :
    (c.addMember kind m).contents other
      = c.contents other ++ if kind = other then [m.cells] else [] := by
  cases kind <;> cases other <;> simp [contents, members, addMember]

section Rows

variable {count : Nat}

theorem MemberDraft.fits_cells (m : MemberDraft count) :
    Fits (Nested.memberWord m.kind :: Cell.escapedTexts (m.descriptor :: m.names)) := by
  refine fits_escaped ?_ _
  cases m.kind <;> exact plain_of_all rfl

theorem MemberDraft.fits_row (m : MemberDraft count) : Fits m.row :=
  Fits.cons (plain_of_all rfl) m.fits_cells

theorem ClassDraft.fits_row (c : ClassDraft count) : Fits c.row :=
  fits_escaped (plain_of_all rfl) c.names

theorem MemberDraft.oneLine_lines (m : MemberDraft count) : ∀ line ∈ m.lines, '\n' ∉ line :=
  List.forall_mem_cons.2 ⟨m.fits_row.oneLine, oneLine_remarks m.remarks⟩

theorem ClassDraft.oneLine_lines (c : ClassDraft count) : ∀ line ∈ c.lines, '\n' ∉ line := by
  refine List.forall_mem_cons.2 ⟨c.fits_row.oneLine, List.forall_mem_append.2
    ⟨oneLine_remarks c.remarks, fun line hline => ?_⟩⟩
  obtain ⟨m, -, hline⟩ := List.mem_flatMap.1 hline
  exact m.oneLine_lines line hline

theorem MemberDraft.contents_cons (m : MemberDraft count) (later : List (MemberDraft count))
    (kind : MemberKind) :
    contents (m :: later) kind
      = (if m.kind = kind then [m.cells] else []) ++ contents later kind := by
  by_cases hkind : m.kind = kind
  · rw [contents, List.filter_cons_of_pos (by exact decide_eq_true hkind), if_pos hkind]
    rfl
  · rw [contents, List.filter_cons_of_neg (by simpa using hkind), if_neg hkind]
    rfl

theorem readNames_escaped {names : List String} (h : FullNames count names) (line : Nat) :
    readNames count line (Cell.escapedTexts names) = .ok (Cell.escapedTexts names) :=
  readNames_eq_ok_iff.2 ⟨rfl, Cell.fullNames_escaped h⟩

/-- A member that is added stands below its class as it is meant. -/
theorem MemberDraft.addMember (m : MemberDraft count) (line : Nat) {s : Nested.State}
    {c : ClassRow} {earlier : List ClassRow} (hs : s.escaped = true)
    (hclasses : s.classes = c :: earlier) :
    s.addMember count line m.kind (Cell.escapedTexts (m.descriptor :: m.names)) = .ok { s with
      inMember := true
      classes := c.addMember m.kind { line, descriptor := m.descriptor, names := m.names }
        :: earlier } := by
  have hlen : (Cell.escapedTexts m.names).length = count := (Cell.fullNames_escaped m.named).1
  have hcell : s.cellText (Cell.escaped m.descriptor).text = m.descriptor :=
    List.head_eq_of_cons_eq (Nested.map_cellText_escaped hs [m.descriptor])
  rw [Nested.State.addMember, hclasses]
  show (if (Cell.escapedTexts m.names).length ≠ count then _
    else if (Cell.escaped m.descriptor).text = "" then _
    else (readNames count line (Cell.escapedTexts m.names)).map _) = _
  rw [if_neg (not_not.2 hlen), if_neg (Cell.escaped_ne_empty m.described),
    readNames_escaped m.named, Except.map, hcell, Nested.map_cellText_escaped hs]

/-- The row of a member adds what it says to the last class. -/
theorem MemberDraft.exists_readLine (m : MemberDraft count) (first : Nat) {s : Nested.State}
    {c : ClassRow} {earlier : List ClassRow} (hs : s.Past (c :: earlier)) :
    ∃ s' row, s.readLine count (first, Text.row m.row) = .ok s' ∧ s'.At .ofMember
      ∧ s'.Past (c.addMember m.kind row :: earlier) ∧ row.cells = m.cells := by
  have hread := Nested.readLine_member hs.past count first m.fits_cells
  exact ⟨_, _, hread.trans (m.addMember first hs.escaped hs.classes), ⟨rfl, rfl⟩,
    ⟨hs.escaped, rfl, rfl⟩, rfl⟩

/-- The lines of a member add what it says to the last class. -/
theorem MemberDraft.exists_readLines (m : MemberDraft count) (first : Nat) {s : Nested.State}
    {c : ClassRow} {earlier : List ClassRow} (hs : s.Past (c :: earlier)) :
    ∃ s' row, Nested.readLines count first m.lines s = .ok s'
      ∧ s'.Past (c.addMember m.kind row :: earlier) ∧ row.cells = m.cells := by
  obtain ⟨s', row, hread, hat, hpast, hcells⟩ := m.exists_readLine first hs
  refine ⟨s', row, ?_, hpast, hcells⟩
  rw [lines, Nested.readLines_cons, m.fits_row.dropReturn_row, hread]
  exact readLines_remarks hat count (first + 1) m.remarks

theorem exists_readLines_members (members : List (MemberDraft count)) (first : Nat)
    {s : Nested.State} {c : ClassRow} {earlier : List ClassRow} (hs : s.Past (c :: earlier)) :
    ∃ s' c', Nested.readLines count first (members.flatMap MemberDraft.lines) s = .ok s'
      ∧ s'.Past (c' :: earlier) ∧ c'.names = c.names
      ∧ ∀ kind, c'.contents kind = c.contents kind ++ MemberDraft.contents members kind := by
  -- the class that is read grows by a member at a time
  induction members generalizing first s c with
  | nil => exact ⟨s, c, rfl, hs, rfl, fun kind => (List.append_nil _).symm⟩
  | cons m later ih =>
      obtain ⟨s', row, hread, hpast, hcells⟩ := m.exists_readLines first hs
      obtain ⟨s'', c', hlater, hpast', hnames, hcontents⟩ := ih (first + m.lines.length) hpast
      refine ⟨s'', c', ?_, hpast', ?_, fun kind => ?_⟩
      · rw [List.flatMap_cons, Nested.readLines_append, hread]
        exact hlater
      · rw [hnames, ClassRow.names_addMember]
      · rw [hcontents kind, ClassRow.contents_addMember, hcells, MemberDraft.contents_cons,
          List.append_assoc]

/-- The row says what is meant. -/
structure ClassDraft.ReadAs (c : ClassDraft count) (row : ClassRow) : Prop where
  names : row.names = c.names
  contents : ∀ kind, row.contents kind = c.contents kind

/-- A class that is added has the names that are meant. -/
theorem ClassDraft.addClass (c : ClassDraft count) (line : Nat) {s : Nested.State}
    (hs : s.escaped = true) :
    s.addClass count line (Cell.escapedTexts c.names) = .ok { s with
      inMember := false
      classes := { line, names := c.names } :: s.classes } := by
  rw [Nested.State.addClass, readNames_escaped c.named, Except.map,
    Nested.map_cellText_escaped hs]

/-- The row of a class starts a class with its names. -/
theorem ClassDraft.exists_readLine (c : ClassDraft count) (first : Nat) {s : Nested.State}
    (hs : s.escaped = true) :
    ∃ s', s.readLine count (first, Text.row c.row) = .ok s' ∧ s'.At .ofClass
      ∧ s'.Past ({ line := first, names := c.names } :: s.classes) := by
  have hread := Nested.readLine_class s count first c.fits_row
  exact ⟨_, hread.trans (c.addClass first hs), rfl, ⟨hs, rfl, rfl⟩⟩

/-- The lines of a class add a class that says what is meant. -/
theorem ClassDraft.exists_readLines (c : ClassDraft count) (first : Nat) {s : Nested.State}
    (hs : s.escaped = true) :
    ∃ s' row, Nested.readLines count first c.lines s = .ok s' ∧ s'.Past (row :: s.classes)
      ∧ c.ReadAs row := by
  obtain ⟨s', hread, hat, hpast⟩ := c.exists_readLine first hs
  obtain ⟨s'', row, hmembers, hpast', hnames, hcontents⟩ :=
    exists_readLines_members c.members (first + 1 + (c.remarks.map Remark.line).length) hpast
  refine ⟨s'', row, ?_, hpast', hnames, fun kind => ?_⟩
  · rw [lines, Nested.readLines_cons, c.fits_row.dropReturn_row, hread]
    show Nested.readLines count (first + 1) _ s' = _
    rw [Nested.readLines_append, readLines_remarks hat]
    exact hmembers
  · rw [hcontents kind]
    cases kind <;> rfl

/-- **The lines of classes** add classes that say what is meant, in their order. -/
theorem exists_readLines_classes (classes : List (ClassDraft count)) (first : Nat)
    {s : Nested.State} (hs : s.escaped = true) :
    ∃ s' rows, Nested.readLines count first (classes.flatMap ClassDraft.lines) s = .ok s'
      ∧ s'.classes = rows.reverse ++ s.classes
      ∧ List.Forall₂ ClassDraft.ReadAs classes rows := by
  induction classes generalizing first s with
  | nil => exact ⟨s, [], rfl, rfl, .nil⟩
  | cons c later ih =>
      obtain ⟨s', row, hread, hpast, hrow⟩ := c.exists_readLines first hs
      obtain ⟨s'', rows, hlater, hclasses, hrows⟩ := ih (first + c.lines.length) hpast.escaped
      refine ⟨s'', row :: rows, ?_, ?_, .cons hrow hrows⟩
      · rw [List.flatMap_cons, Nested.readLines_append, hread]
        exact hlater
      · rw [hclasses, hpast.classes, List.reverse_cons, List.append_assoc]
        rfl

end Rows

section Reading

variable (draft : Draft)

theorem Draft.fits_header : Fits draft.header := by
  have hlabels : Fits draft.labels := ⟨draft.declared, draft.plain⟩
  exact Fits.cons (plain_of_all rfl) (Fits.cons (plain_of_all rfl)
    (Fits.cons (plain_of_all rfl) hlabels))

/-- Everything in a draft is written on lines of its own. -/
theorem Draft.oneLine_body : ∀ line ∈ draft.body, '\n' ∉ line := by
  refine List.forall_mem_append.2 ⟨oneLine_remarks draft.above, List.forall_mem_cons.2
    ⟨by decide, List.forall_mem_append.2 ⟨oneLine_remarks draft.below, fun line hline => ?_⟩⟩⟩
  obtain ⟨c, -, hline⟩ := List.mem_flatMap.1 hline
  exact c.oneLine_lines line hline

/-- The body of a draft is read into classes that say what is meant. -/
theorem Draft.exists_readLines :
    ∃ s rows, Nested.readLines draft.labels.length 2 draft.body {} = .ok s
      ∧ s.classes = rows.reverse ∧ List.Forall₂ ClassDraft.ReadAs draft.classes rows := by
  -- the property raises the flag
  have hproperty : ∀ first, Nested.State.readLine draft.labels.length {}
      (first, Text.dropReturn (Text.row ["", "escaped-names"])) = .ok { escaped := true } :=
    fun _ => rfl
  obtain ⟨s, rows, hread, hclasses, hrows⟩ := exists_readLines_classes draft.classes
    (2 + (draft.above.map Remark.line).length + 1 + (draft.below.map Remark.line).length)
    (s := { escaped := true }) rfl
  refine ⟨s, rows, ?_, hclasses.trans (List.append_nil _), hrows⟩
  have hblank : ∀ (s : Nested.State), s.At .header := fun _ => trivial
  rw [body, Nested.readLines_append]
  refine Outcome.bind_eq_ok.2 ⟨_, readLines_remarks (hblank {}) _ _ _, ?_⟩
  rw [Nested.readLines_cons]
  refine Outcome.bind_eq_ok.2 ⟨_, hproperty _, ?_⟩
  rw [Nested.readLines_append]
  exact Outcome.bind_eq_ok.2 ⟨_, readLines_remarks (hblank _) _ _ _, hread⟩

/-- **A draft is read** into rows that say what is meant. -/
theorem Draft.exists_read :
    ∃ doc, Document.read draft.text = .ok doc ∧ doc.format = .tinyV2
      ∧ doc.namespaces = ⟨draft.labels⟩
      ∧ List.Forall₂ ClassDraft.ReadAs draft.classes doc.classes := by
  have hlines : Text.numberedLines draft.text.toList
      = (1, Text.row draft.header) :: Text.numberFrom 2 (draft.body.map Text.dropReturn) := by
    rw [text, String.toList_ofList, Text.numberedLines_ended
      (List.forall_mem_cons.2 ⟨draft.fits_header.oneLine, draft.oneLine_body⟩), List.map_cons,
      draft.fits_header.dropReturn_row, Text.numberFrom_cons]
  have hcells : Text.cells (Text.row draft.header) = "tiny" :: "2" :: "0" :: draft.labels :=
    draft.fits_header.cells_row
  have hformat : Format.detect
      ((1, Text.row draft.header) :: Text.numberFrom 2 (draft.body.map Text.dropReturn))
        = .ok .tinyV2 := by
    rw [Format.detect, hcells]
    rfl
  have hcolumns : ¬ ("tiny" :: "2" :: "0" :: draft.labels).length < 4 := by
    have hpos := List.length_pos_iff.2 draft.declared
    simp only [List.length_cons]
    omega
  have hdeclare : Namespaces.declare draft.labels = .ok ⟨draft.labels⟩ :=
    Namespaces.declare_eq_ok_iff.2 ⟨rfl, draft.declared, draft.labelled, draft.different⟩
  obtain ⟨s, rows, hread, hclasses, hrows⟩ := draft.exists_readLines
  refine ⟨⟨.tinyV2, ⟨draft.labels⟩, rows⟩, ?_, rfl, rfl, hrows⟩
  rw [Document.read_nested hlines hformat, Nested.read, hcells, if_neg hcolumns]
  refine Outcome.bind_eq_ok.2 ⟨⟨draft.labels⟩, hdeclare, Outcome.bind_eq_ok.2 ⟨s, hread, ?_⟩⟩
  rw [hclasses, List.reverse_reverse]
  rfl

end Reading

-- ── Joining leaves distinct rows alone ───────────────────────────────────────

/-- Nothing is declared twice: class rows differ in their first names, and member rows of one
    kind in a class in descriptor or first name. -/
structure Distinct (rows : List ClassRow) : Prop where
  names : (rows.map ClassRow.firstName).Nodup
  members : ∀ c ∈ rows, ∀ kind, ((c.contents kind).map keyOf).Nodup

section Joining

variable {rows : List ClassRow}

/-- The members under the name of a row are those of the row. -/
theorem Distinct.membersUnder_eq (h : (rows.map ClassRow.firstName).Nodup) {c : ClassRow}
    (hc : c ∈ rows) (kind : MemberKind) :
    membersUnder kind c.firstName rows = c.members kind := by
  induction rows with
  | nil => exact nomatch hc
  | cons d later ih =>
      obtain ⟨hd, hlater⟩ := List.nodup_cons.1 h
      rw [membersUnder_cons]
      rcases List.mem_cons.1 hc with rfl | hc
      · rw [if_pos rfl, membersUnder_eq_nil kind hd, List.append_nil]
      · have hne : d.firstName ≠ c.firstName := fun heq =>
          hd (heq ▸ List.mem_map_of_mem hc)
        rw [if_neg hne, List.nil_append, ih hlater hc]

theorem Distinct.onePerClass (h : Distinct rows) : OnePerKey firstOf (rows.map ClassRow.names) := by
  refine onePerKey_of_nodup ?_
  rw [List.map_map]
  exact h.names

theorem Distinct.onePerMember (h : Distinct rows) (kind : MemberKind) (name : String) :
    OnePerKey keyOf ((membersUnder kind name rows).map MemberRow.cells) := by
  by_cases hname : name ∈ rows.map ClassRow.firstName
  · obtain ⟨c, hc, rfl⟩ := List.mem_map.1 hname
    rw [membersUnder_eq h.names hc]
    exact onePerKey_of_nodup (h.members c hc kind)
  · rw [membersUnder_eq_nil kind hname]
    exact fun a ha => nomatch ha

/-- Under the names of a row stands what the row says. -/
theorem Distinct.contents_eq (h : Distinct rows) {c : ClassRow} (hc : c ∈ rows)
    (kind : MemberKind) :
    ((membersUnder kind (firstOf c.names) rows).map MemberRow.cells).eraseDups
      = c.contents kind := by
  have hunder : membersUnder kind (firstOf c.names) rows = c.members kind :=
    membersUnder_eq h.names hc kind
  rw [hunder]
  exact eraseDups_of_nodup (List.Nodup.of_map keyOf (h.members c hc kind))

/-- Classes that list what distinct rows declare say what the rows say, in the same order. -/
theorem Lists.of_distinct {δ : Type} {namesOf : δ → List String}
    {contents : δ → MemberKind → List (List String)} {classes : List δ}
    (h : Lists namesOf contents rows classes) (hrows : Distinct rows) :
    classes.map namesOf = rows.map ClassRow.names
      ∧ ∀ kind, classes.map (contents · kind) = rows.map (·.contents kind) := by
  have hnames : classes.map namesOf = rows.map ClassRow.names := by
    rw [h.names, eraseDups_of_nodup]
    refine List.Nodup.of_map firstOf ?_
    rw [List.map_map]
    exact hrows.names
  refine ⟨hnames, fun kind => ?_⟩
  -- on both sides the members are found through the names
  calc classes.map (contents · kind)
      = (classes.map namesOf).map fun names =>
          ((membersUnder kind (firstOf names) rows).map MemberRow.cells).eraseDups := by
        rw [List.map_map]
        exact List.map_congr_left fun d hd => h.members d hd kind
    _ = (rows.map ClassRow.names).map fun names =>
          ((membersUnder kind (firstOf names) rows).map MemberRow.cells).eraseDups := by
        rw [hnames]
    _ = rows.map (·.contents kind) := by
        rw [List.map_map]
        exact List.map_congr_left fun c hc => hrows.contents_eq hc kind

end Joining

/-- Members of one kind in a draft differ in descriptor or first name. -/
theorem ClassDraft.nodup_contents {count : Nat} (c : ClassDraft count) (kind : MemberKind) :
    ((c.contents kind).map keyOf).Nodup := by
  have hsub : ((c.members.filter fun m => m.kind = kind).map MemberDraft.key).Nodup :=
    c.distinct.sublist (List.filter_sublist.map _)
  have hkey : (c.members.filter fun m => m.kind = kind).map MemberDraft.key
      = ((c.contents kind).map keyOf).map fun key => (kind, key.2, key.1) := by
    rw [contents, MemberDraft.contents, List.map_map, List.map_map]
    refine List.map_congr_left fun m hm => ?_
    rw [MemberDraft.key, of_decide_eq_true (List.mem_filter.1 hm).2]
    rfl
  exact List.Nodup.of_map _ (hkey ▸ hsub)

/-- Rows that say what a draft means are distinct. -/
theorem Draft.distinct_of_readAs (draft : Draft) {rows : List ClassRow}
    (h : List.Forall₂ ClassDraft.ReadAs draft.classes rows) : Distinct rows := by
  constructor
  · have hnames : (draft.classes.map fun c => firstOf c.names) = rows.map ClassRow.firstName :=
      Outcome.map_eq_map (h.imp fun c row hrow => congrArg firstOf hrow.names.symm)
    exact hnames ▸ draft.distinct
  · intro row hrow kind
    obtain ⟨c, -, hread⟩ := Outcome.exists_source h hrow
    rw [hread.contents kind]
    exact c.nodup_contents kind

/-- Descriptors of rows that say what a draft means are complete. -/
theorem ClassDraft.ReadAs.complete {count : Nat} {c : ClassDraft count} {row : ClassRow}
    (h : c.ReadAs row) {kind : MemberKind} {m : MemberRow} (hm : m ∈ row.members kind) :
    Descriptor.Complete m.descriptor := by
  have hcells : m.cells ∈ c.contents kind := h.contents kind ▸ List.mem_map_of_mem hm
  obtain ⟨d, hd, heq⟩ := List.mem_map.1 hcells
  rw [← List.head_eq_of_cons_eq heq]
  exact d.complete

-- ── Loading ──────────────────────────────────────────────────────────────────

/-- **Drafts are loaded as they were meant.** The text of a draft is loaded, and the catalog has
    its labels, its classes in their order under all their names, and in each class the fields
    and the methods in their order, with their descriptor in the first namespace and all their
    names. -/
theorem Catalog.load_draft (draft : Draft) :
    ∃ catalog, load draft.text = .ok catalog
      ∧ catalog.format = .tinyV2 ∧ catalog.namespaces.labels = draft.labels
      ∧ catalog.classes.map ClassEntry.names = draft.classes.map ClassDraft.names
      ∧ ∀ kind, catalog.classes.map (·.contents kind) = draft.classes.map (·.contents kind) := by
  obtain ⟨doc, hread, hformat, hns, hrows⟩ := draft.exists_read
  have hdistinct := draft.distinct_of_readAs hrows
  obtain ⟨hdeclared, -, -, hgood⟩ := Document.read_eq_ok hread
  have hlabels : 0 < doc.namespaces.size := List.length_pos_iff.2 hdeclared
  have hcomplete : ∀ kind name, ∀ m ∈ membersUnder kind name doc.classes,
      Descriptor.Complete m.descriptor := by
    intro kind name m hm
    obtain ⟨row, hrow, hm⟩ := List.mem_flatMap.1 hm
    obtain ⟨c, -, hread⟩ := Outcome.exists_source hrows (List.mem_filter.1 hrow).1
    exact hread.complete hm
  obtain ⟨classes, hentries⟩ := (Document.exists_entries_iff hgood hlabels).2
    ⟨⟨hdistinct.onePerClass, hdistinct.onePerMember⟩, hcomplete⟩
  obtain ⟨catalog, hload, hentries, hcformat, hcns⟩ : ∃ catalog, load draft.text = .ok catalog
      ∧ doc.entries = .ok catalog.classes ∧ catalog.format = doc.format
      ∧ catalog.namespaces = doc.namespaces :=
    ⟨⟨doc.format, doc.namespaces, classes, Digest.fingerprintOf draft.text⟩,
      load_eq_ok_iff.2 ⟨doc, hread, hentries, rfl, rfl, rfl⟩, hentries, rfl, rfl⟩
  rw [← hcns] at hgood hlabels
  obtain ⟨hnames, hcontents⟩ :=
    (Document.lists_of_entries hgood hlabels hentries hcns).of_distinct hdistinct
  refine ⟨catalog, hload, hcformat.trans hformat,
    congrArg Namespaces.labels (hcns.trans hns), hnames.trans ?_, fun kind => ?_⟩
  · exact (Outcome.map_eq_map (hrows.imp fun c row hrow => hrow.names.symm)).symm
  · rw [hcontents kind]
    exact (Outcome.map_eq_map (hrows.imp fun c row hrow => (hrow.contents kind).symm)).symm

/-- A class, a field and a method under names of special characters, among comments, with a
    carriage return in a blank line and one at the end of a comment. -/
theorem Catalog.load_draft_special_names :
    ∃ draft : Draft,
      draft.text = "tiny\t2\t0\ta\tb\n \r\n\tescaped-names\n\n"
        ++ "c\tx\\ty\t\\\\n\n\tc\tnote\n\tm\t(Lx\\ty;)V\t\\0\t\\r\\n\n\t\tp\t1\n\t\t\tc\targ\r\n"
        ++ "\tc\n\tf\tI\t\\\\\t\\\\\\\\\n"
      ∧ ∃ catalog, load draft.text = .ok catalog
          ∧ catalog.classes.map ClassEntry.names = [["x\ty", "\\n"]]
          ∧ catalog.classes.map (·.contents .field) = [[["I", "\\", "\\\\"]]]
          ∧ catalog.classes.map (·.contents .method) = [[["(Lx\ty;)V", "\x00", "\r\n"]]] := by
  refine ⟨_, ?_, (load_draft {
    labels := ["a", "b"], declared := by decide, labelled := by decide, different := by decide
    plain := List.forall_mem_cons.2
      ⟨plain_of_all rfl, List.forall_mem_singleton.2 (plain_of_all rfl)⟩
    above := [.blank [' ', '\r'] (List.forall_mem_cons.2
      ⟨⟨rfl, by decide⟩, List.forall_mem_singleton.2 ⟨rfl, by decide⟩⟩)]
    below := [.blank [] (List.forall_mem_nil _)]
    classes := [{
      names := ["x\ty", "\\n"], named := ⟨rfl, by decide⟩
      remarks := [.row 1 "c" (by decide) ["note"] (by decide)]
      members := [
        { kind := .method, descriptor := "(Lx\ty;)V", described := by decide
          complete := by decide, names := ["\x00", "\r\n"], named := ⟨rfl, by decide⟩
          remarks := [.row 2 "p" (by decide) ["1"] (by decide),
            .row 3 "c" (by decide) ["arg\r"] (by decide), .row 1 "c" (by decide) [] (by decide)] },
        { kind := .field, descriptor := "I", described := by decide, complete := by decide
          names := ["\\", "\\\\"], named := ⟨rfl, by decide⟩, remarks := [] }]
      distinct := by decide }]
    distinct := by decide }).imp fun _ h => ⟨h.1, h.2.2.2.1, h.2.2.2.2 .field, h.2.2.2.2 .method⟩⟩
  decide

/-- The header has to be the first line: where a blank line stands above it, it is missing. And
    it has to declare a namespace. -/
theorem Catalog.load_blank_above_header :
    (∃ draft : Draft, draft.text = "tiny\t2\t0\ta\n\tescaped-names\nc\tx\n"
        ∧ load "\ntiny\t2\t0\ta\n\tescaped-names\nc\tx\n" = .error (.parse 1 .missingHeader))
      ∧ load "tiny\t2\t0\n\tescaped-names\n" = .error (.parse 1 .noNamespaceColumns) := by
  refine ⟨⟨{
    labels := ["a"], declared := by decide, labelled := by decide, different := by decide
    plain := List.forall_mem_singleton.2 (plain_of_all rfl), above := [], below := []
    classes := [{
      names := ["x"], named := ⟨rfl, by decide⟩, remarks := [], members := []
      distinct := by decide }]
    distinct := by decide }, rfl, rfl⟩, rfl⟩

end Nomenclator.Naming
