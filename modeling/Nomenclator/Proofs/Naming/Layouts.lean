import Nomenclator.Proofs.Naming.Catalog

/-! # The two layouts of a document

    A sheet is a naming document before it is laid out: labels, classes and members
    as cells that fit into a row.  It can be written flat or nested, line by line.
    Both texts are loaded alike, faults and their lines included.

    * **Blocks** — a class row with the member rows below it; both readers take the
      same blocks from the two texts, or stop at the same fault;
    * **Regrouping** — the flat reader gives the members of all blocks to the first
      class row of a name, the nested one leaves them in their blocks.  Giving a
      member commutes with joining class rows, so both lead to the same classes. -/

namespace Nomenclator.Naming

-- ── Sheets ───────────────────────────────────────────────────────────────────

/-- A text that fits into a cell: it may be empty, but holds no tab and no line end. -/
structure Cell where
  text : String
  plain : ∀ c ∈ text.toList, c ≠ '\t' ∧ c ≠ '\n' ∧ c ≠ '\r'

/-- The texts of some cells. -/
def Cell.texts (cells : List Cell) : List String := cells.map Cell.text

/-- A member: its descriptor, and one name for each of `count` namespaces. -/
structure MemberSheet (count : Nat) where
  kind : MemberKind
  descriptor : Cell
  names : Vector Cell count

/-- A class: one name for each of `count` namespaces, and its members. -/
structure ClassSheet (count : Nat) where
  names : Vector Cell count
  members : List (MemberSheet count)

/-- A naming document before it is laid out. -/
structure Sheet where
  labels : List Cell
  declared : labels ≠ []
  classes : List (ClassSheet labels.length)

section Layout

variable {count : Nat}

/-- The names of a class. -/
def ClassSheet.texts (c : ClassSheet count) : List String := Cell.texts c.names.toList

/-- The names of a member. -/
def MemberSheet.texts (m : MemberSheet count) : List String := Cell.texts m.names.toList

/-- The rows of a class where every row stands for itself. -/
def ClassSheet.flatRows (c : ClassSheet count) : List (List String) :=
  ("CLASS" :: c.texts) :: c.members.map fun m =>
    Flat.memberWord m.kind :: c.texts.headD "" :: m.descriptor.text :: m.texts

/-- The rows of a class where members are indented: their rows start with an empty cell. -/
def ClassSheet.nestedRows (c : ClassSheet count) : List (List String) :=
  ("c" :: c.texts) :: c.members.map fun m =>
    "" :: Nested.memberWord m.kind :: m.descriptor.text :: m.texts

end Layout

/-- The text of some rows of cells, one on each line. -/
def layOut (rows : List (List String)) : String := String.ofList (Text.ended (rows.map Text.row))

/-- The sheet as a flat document. -/
def Sheet.flatText (sheet : Sheet) : String :=
  layOut (("v1" :: Cell.texts sheet.labels) :: sheet.classes.flatMap ClassSheet.flatRows)

/-- The sheet as a nested document. -/
def Sheet.nestedText (sheet : Sheet) : String :=
  layOut (("tiny" :: "2" :: "0" :: Cell.texts sheet.labels)
    :: sheet.classes.flatMap ClassSheet.nestedRows)

-- ── Rows that are read back ──────────────────────────────────────────────────

/-- A word holds no tab and no line end if a look at its characters finds none. -/
theorem plain_of_all {word : String}
    (h : (word.toList.all fun c => c != '\t' && c != '\n' && c != '\r') = true) :
    ∀ c ∈ word.toList, c ≠ '\t' ∧ c ≠ '\n' ∧ c ≠ '\r' := by
  intro c hc
  have hlook := List.all_eq_true.1 h c hc
  simpa [and_assoc] using hlook

/-- A row of cells that fits on a line. -/
def Fits (cells : List String) : Prop :=
  cells ≠ [] ∧ ∀ cell ∈ cells, ∀ c ∈ cell.toList, c ≠ '\t' ∧ c ≠ '\n' ∧ c ≠ '\r'

theorem Fits.cells_row {cells : List String} (h : Fits cells) :
    Text.cells (Text.row cells) = cells :=
  Text.cells_row h.1 fun cell hcell hmem => (h.2 cell hcell '\t' hmem).1 rfl

/-- A row that fits stands on one line. -/
theorem Fits.oneLine {cells : List String} (h : Fits cells) : '\n' ∉ Text.row cells :=
  Text.not_mem_row (by decide) fun cell hcell hmem => (h.2 cell hcell _ hmem).2.1 rfl

theorem Fits.dropReturn_row {cells : List String} (h : Fits cells) :
    Text.dropReturn (Text.row cells) = Text.row cells :=
  Text.dropReturn_of_not_mem
    (Text.not_mem_row (by decide) fun cell hcell hmem => (h.2 cell hcell _ hmem).2.2 rfl)

theorem fits_texts {word : String} (hword : ∀ c ∈ word.toList, c ≠ '\t' ∧ c ≠ '\n' ∧ c ≠ '\r')
    (cells : List Cell) : Fits (word :: Cell.texts cells) := by
  refine ⟨List.cons_ne_nil _ _, fun cell hcell => ?_⟩
  rcases List.mem_cons.1 hcell with rfl | hcell
  · exact hword
  · obtain ⟨c, -, rfl⟩ := List.mem_map.1 hcell
    exact c.plain

theorem Fits.cons {word : String} {cells : List String}
    (hword : ∀ c ∈ word.toList, c ≠ '\t' ∧ c ≠ '\n' ∧ c ≠ '\r') (h : Fits cells) :
    Fits (word :: cells) := by
  refine ⟨List.cons_ne_nil _ _, fun cell hcell => ?_⟩
  rcases List.mem_cons.1 hcell with rfl | hcell
  · exact hword
  · exact h.2 cell hcell

/-- The lines of a text that was laid out are its rows. -/
theorem numberedLines_layOut {rows : List (List String)} (h : ∀ cells ∈ rows, Fits cells) :
    Text.numberedLines (layOut rows).toList = Text.numberFrom 1 (rows.map Text.row) := by
  rw [layOut, String.toList_ofList]
  refine Text.numberedLines_ended_of_clean fun line hline => ?_
  obtain ⟨cells, hcells, rfl⟩ := List.mem_map.1 hline
  exact ⟨(h cells hcells).oneLine, (h cells hcells).dropReturn_row⟩

section Rows

variable {count : Nat}

/-- The first name of a class fits into a cell of its members' rows. -/
theorem ClassSheet.plain_firstName (c : ClassSheet count) :
    ∀ ch ∈ (c.texts.headD "").toList, ch ≠ '\t' ∧ ch ≠ '\n' ∧ ch ≠ '\r' := by
  rw [texts, Cell.texts]
  cases c.names.toList with
  | nil => exact fun ch hch => nomatch hch
  | cons first rest => exact first.plain

theorem ClassSheet.fits_flatRows (c : ClassSheet count) : ∀ cells ∈ c.flatRows, Fits cells := by
  intro cells hcells
  rcases List.mem_cons.1 hcells with rfl | hcells
  · exact fits_texts (plain_of_all rfl) _
  · obtain ⟨m, -, rfl⟩ := List.mem_map.1 hcells
    refine Fits.cons ?_ (Fits.cons c.plain_firstName (fits_texts m.descriptor.plain _))
    cases m.kind <;> exact plain_of_all rfl

theorem ClassSheet.fits_nestedRows (c : ClassSheet count) :
    ∀ cells ∈ c.nestedRows, Fits cells := by
  intro cells hcells
  rcases List.mem_cons.1 hcells with rfl | hcells
  · exact fits_texts (plain_of_all rfl) _
  · obtain ⟨m, -, rfl⟩ := List.mem_map.1 hcells
    refine Fits.cons (plain_of_all rfl) (Fits.cons ?_ (fits_texts m.descriptor.plain _))
    cases m.kind <;> exact plain_of_all rfl

end Rows

-- ── Blocks ───────────────────────────────────────────────────────────────────

/-- A class row with the member rows below it. -/
structure Block where
  row : ClassRow
  members : List (MemberKind × MemberRow)

/-- The class row with its members in it. -/
def Block.nested (b : Block) : ClassRow :=
  b.members.foldl (fun c m => c.addMember m.1 m.2) b.row

/-- The members with the name of their class. -/
def Block.owned (b : Block) : List (MemberKind × String × MemberRow) :=
  b.members.map fun m => (m.1, b.row.firstName, m.2)

/-- The rows of the block where every row stands for itself. -/
def Block.rows (b : Block) : List Flat.Row :=
  .ofClass b.row :: b.members.map fun m => .ofMember m.1 b.row.firstName m.2

section Reading

variable {count : Nat}

/-- Reads a member that stands on a line. -/
def MemberSheet.read (line : Nat) (m : MemberSheet count) :
    Except Error (MemberKind × MemberRow) :=
  if m.descriptor.text = "" then .error (.parse line .emptyDescriptor)
  else (readNames count line m.texts).map fun names =>
    (m.kind, { line, descriptor := m.descriptor.text, names })

/-- Reads members that stand on lines of their own, from a given one. -/
def readMembers : (line : Nat) → List (MemberSheet count) →
    Except Error (List (MemberKind × MemberRow))
  | _, [] => .ok []
  | line, m :: later => do
    let member ← m.read line
    let members ← readMembers (line + 1) later
    return member :: members

/-- Reads a class that starts on a line. -/
def ClassSheet.read (line : Nat) (c : ClassSheet count) : Except Error Block := do
  let names ← readNames count line c.texts
  let members ← readMembers (line + 1) c.members
  return { row := { line, names }, members }

/-- Reads classes that follow each other, from a given line. -/
def readBlocks : (line : Nat) → List (ClassSheet count) → Except Error (List Block)
  | _, [] => .ok []
  | line, c :: later => do
    let block ← c.read line
    let blocks ← readBlocks (line + 1 + c.members.length) later
    return block :: blocks

-- ── The flat reader ──────────────────────────────────────────────────────────

/-- A row starts with its first cell. -/
theorem exists_row_eq (word : String) (cells : List String) :
    ∃ rest, Text.row (word :: cells) = word.toList ++ rest := by
  cases cells with
  | nil => exact ⟨[], (List.append_nil _).symm⟩
  | cons next later =>
      exact ⟨['\t'] ++ Text.row (next :: later), List.append_assoc _ _ _⟩

theorem Flat.readRows_append (count : Nat) (front back : List (Nat × List Char)) :
    readRows count (front ++ back)
      = readRows count front >>= fun rows => (readRows count back).map (rows ++ ·) := by
  induction front with
  | nil =>
      rw [List.nil_append]
      show readRows count back = (readRows count back).map ([] ++ ·)
      cases readRows count back <;> rfl
  | cons entry later ih =>
      obtain ⟨number, line⟩ := entry
      rw [List.cons_append, readRows, readRows, ih]
      by_cases hrow : isRow line = true
      · rw [if_pos hrow, if_pos hrow]
        cases readRow count number line with
        | error e => rfl
        | ok row =>
            cases readRows count later with
            | error e => rfl
            | ok rows => cases readRows count back <;> rfl
      · rw [if_neg hrow, if_neg hrow]

/-- A line that is a row is read on its own. -/
theorem Flat.readRows_cons {count number : Nat} {line : List Char} (hrow : isRow line = true)
    (later : List (Nat × List Char)) :
    readRows count ((number, line) :: later)
      = readRow count number line >>= fun row => (readRows count later).map (row :: ·) := by
  rw [readRows, if_pos hrow]
  cases readRow count number line with
  | error e => rfl
  | ok row => cases readRows count later <;> rfl

theorem Flat.isRow_member (kind : MemberKind) (cells : List String) :
    isRow (Text.row (memberWord kind :: cells)) = true := by
  obtain ⟨rest, hrest⟩ := exists_row_eq (memberWord kind) cells
  rw [hrest]
  cases kind <;> rfl

theorem Flat.isRow_class (cells : List String) : isRow (Text.row ("CLASS" :: cells)) = true := by
  obtain ⟨rest, hrest⟩ := exists_row_eq "CLASS" cells
  rw [hrest]
  rfl

theorem MemberSheet.length_texts (m : MemberSheet count) : m.texts.length = count := by
  rw [texts, Cell.texts, List.length_map, Vector.length_toList]

/-- The flat reader reads the row of a member as the sheet has it, if the owner has a name. -/
theorem MemberSheet.readRow_flat (m : MemberSheet count) (line : Nat) {owner : String}
    (howner : owner ≠ "") (hplain : ∀ c ∈ owner.toList, c ≠ '\t' ∧ c ≠ '\n' ∧ c ≠ '\r') :
    Flat.readRow count line
        (Text.row (Flat.memberWord m.kind :: owner :: m.descriptor.text :: m.texts))
      = (m.read line).map fun member => .ofMember member.1 owner member.2 := by
  have hfits : Fits (Flat.memberWord m.kind :: owner :: m.descriptor.text :: m.texts) := by
    refine Fits.cons ?_ (Fits.cons hplain (fits_texts m.descriptor.plain _))
    cases m.kind <;> exact plain_of_all rfl
  have hmember : Flat.readMember count line m.kind (Flat.memberWord m.kind)
        (owner :: m.descriptor.text :: m.texts)
      = (m.read line).map fun member => .ofMember member.1 owner member.2 := by
    rw [Flat.readMember, if_neg (not_not.2 m.length_texts), if_neg howner, read]
    by_cases hdesc : m.descriptor.text = ""
    · rw [if_pos hdesc, if_pos hdesc]
      rfl
    · rw [if_neg hdesc, if_neg hdesc]
      cases readNames count line m.texts <;> rfl
  rw [Flat.readRow, hfits.cells_row, ← hmember]
  cases m.kind <;> rfl

theorem readRows_members {owner : String} (howner : owner ≠ "")
    (hplain : ∀ c ∈ owner.toList, c ≠ '\t' ∧ c ≠ '\n' ∧ c ≠ '\r') (line : Nat)
    (members : List (MemberSheet count)) :
    Flat.readRows count (Text.numberFrom line ((members.map fun m =>
        Flat.memberWord m.kind :: owner :: m.descriptor.text :: m.texts).map Text.row))
      = (readMembers line members).map fun rows => rows.map fun m => .ofMember m.1 owner m.2 := by
  induction members generalizing line with
  | nil => rfl
  | cons m later ih =>
      rw [List.map_cons, List.map_cons, Text.numberFrom_cons,
        Flat.readRows_cons (Flat.isRow_member _ _), m.readRow_flat line howner hplain, ih,
        readMembers]
      cases m.read line with
      | error e => rfl
      | ok member => cases readMembers (line + 1) later <;> rfl

/-- The flat reader reads the rows of a class as a block. -/
theorem ClassSheet.readRows_flat (hcount : count ≠ 0) (line : Nat) (c : ClassSheet count) :
    Flat.readRows count (Text.numberFrom line (c.flatRows.map Text.row))
      = (c.read line).map Block.rows := by
  have hclass : Flat.readRow count line (Text.row ("CLASS" :: c.texts))
      = (readNames count line c.texts).map fun names => .ofClass { line, names } := by
    have hfits : Fits ("CLASS" :: c.texts) := fits_texts (plain_of_all rfl) _
    rw [Flat.readRow, hfits.cells_row]
    rfl
  rw [flatRows, List.map_cons, Text.numberFrom_cons, Flat.readRows_cons (Flat.isRow_class _),
    hclass, read]
  cases hnames : readNames count line c.texts with
  | error e => rfl
  | ok names =>
      -- the owner of the members is a name that has been read
      obtain ⟨rfl, hlen, hempty⟩ := readNames_eq_ok hnames
      have howner : c.texts.headD "" ≠ "" := by
        cases htexts : c.texts with
        | nil =>
            rw [htexts] at hlen
            exact absurd hlen.symm hcount
        | cons first rest =>
            rw [htexts] at hempty
            exact fun heq => hempty (heq ▸ List.mem_cons_self)
      rw [readRows_members howner c.plain_firstName]
      cases readMembers (line + 1) c.members <;> rfl

theorem readRows_flatRows (hcount : count ≠ 0) (line : Nat) (classes : List (ClassSheet count)) :
    Flat.readRows count
        (Text.numberFrom line ((classes.flatMap ClassSheet.flatRows).map Text.row))
      = (readBlocks line classes).map fun blocks => blocks.flatMap Block.rows := by
  induction classes generalizing line with
  | nil => rfl
  | cons c later ih =>
      have hlen : (c.flatRows.map Text.row).length = 1 + c.members.length := by
        rw [ClassSheet.flatRows, List.length_map, List.length_cons, List.length_map, Nat.add_comm]
      rw [List.flatMap_cons, List.map_append, Text.numberFrom_append, Flat.readRows_append,
        c.readRows_flat hcount, hlen, ← Nat.add_assoc, ih, readBlocks]
      cases c.read line with
      | error e => rfl
      | ok block => cases readBlocks (line + 1 + c.members.length) later <;> rfl

-- ── The nested reader ────────────────────────────────────────────────────────

theorem Nested.isRow_class (cells : List String) : isRow (Text.row ("c" :: cells)) = true := by
  obtain ⟨rest, hrest⟩ := exists_row_eq "c" cells
  rw [hrest]
  exact isRow_of_mem (c := 'c') List.mem_cons_self rfl

theorem Nested.isRow_member (kind : MemberKind) (cells : List String) :
    isRow (Text.row ("" :: memberWord kind :: cells)) = true := by
  obtain ⟨rest, hrest⟩ := exists_row_eq (memberWord kind) cells
  have hline : Text.row ("" :: memberWord kind :: cells) = '\t' :: ((memberWord kind).toList ++ rest) :=
    congrArg ('\t' :: ·) hrest
  rw [hline]
  cases kind with
  | field => exact isRow_of_mem (c := 'f') (List.mem_cons_of_mem _ List.mem_cons_self) rfl
  | method => exact isRow_of_mem (c := 'm') (List.mem_cons_of_mem _ List.mem_cons_self) rfl

theorem Nested.depth_class (cells : List String) : depth (Text.row ("c" :: cells)) = 0 := by
  obtain ⟨rest, hrest⟩ := exists_row_eq "c" cells
  rw [hrest]
  rfl

theorem Nested.depth_member (kind : MemberKind) (cells : List String) :
    depth (Text.row ("" :: memberWord kind :: cells)) = 1 := by
  obtain ⟨rest, hrest⟩ := exists_row_eq (memberWord kind) cells
  have hline : Text.row ("" :: memberWord kind :: cells) = '\t' :: ((memberWord kind).toList ++ rest) :=
    congrArg ('\t' :: ·) hrest
  rw [hline]
  cases kind <;> rfl

/-- The reader takes the cells of a class row that fits. -/
theorem Nested.rowCells_class {cells : List String} (h : Fits ("c" :: cells)) :
    rowCells (Text.row ("c" :: cells)) = "c" :: cells := by
  rw [rowCells, depth_class]
  exact h.cells_row

/-- The reader takes the cells of a member row that fits, but for the indentation. -/
theorem Nested.rowCells_member {kind : MemberKind} {cells : List String}
    (h : Fits (memberWord kind :: cells)) :
    rowCells (Text.row ("" :: memberWord kind :: cells)) = memberWord kind :: cells := by
  rw [rowCells, depth_member]
  exact h.cells_row

theorem Nested.readRow_member (s : State) (count line : Nat) (kind : MemberKind)
    (cells : List String) :
    s.readRow count line 1 (memberWord kind :: cells) = s.addMember count line kind cells := by
  cases kind <;> rfl

/-- The row of a class starts a class, wherever it stands. -/
theorem Nested.readLine_class (s : State) (count line : Nat) {cells : List String}
    (h : Fits ("c" :: cells)) :
    s.readLine count (line, Text.row ("c" :: cells))
      = { s with inProperties := false }.addClass count line cells := by
  rw [State.readLine]
  dsimp only
  rw [if_neg (by rw [isRow_class]; exact Bool.false_ne_true), depth_class,
    if_neg (by rw [Bool.and_comm]; exact Bool.false_ne_true), rowCells_class h]
  rfl

/-- Past the properties, the row of a member adds a member. -/
theorem Nested.readLine_member {s : State} (hpast : s.inProperties = false) (count line : Nat)
    {kind : MemberKind} {cells : List String} (h : Fits (memberWord kind :: cells)) :
    s.readLine count (line, Text.row ("" :: memberWord kind :: cells))
      = { s with inProperties := false }.addMember count line kind cells := by
  rw [State.readLine]
  dsimp only
  rw [if_neg (by rw [isRow_member]; exact Bool.false_ne_true), depth_member, hpast,
    if_neg (by exact Bool.false_ne_true), rowCells_member h, readRow_member]

/-- The state of the reader when it has read some classes, last first, of a sheet. -/
structure Nested.Plain (s : State) (classes : List ClassRow) : Prop where
  escaped : s.escaped = false
  classes : s.classes = classes

/-- The state of the reader below a class row of a sheet. -/
structure Nested.PlainBody (s : State) (classes : List ClassRow) : Prop extends
    Plain s classes where
  outside : s.inProperties = false

theorem Nested.map_cellText {s : State} (h : s.escaped = false) (cells : List String) :
    cells.map s.cellText = cells := by
  refine List.map_id'' (fun cell => ?_) cells
  rw [State.cellText, h]
  rfl

/-- The nested reader adds a member of a sheet to the last class. -/
theorem MemberSheet.readLine_nested (m : MemberSheet count) (line : Nat) {s : Nested.State}
    {c : ClassRow} {earlier : List ClassRow} (h : Nested.PlainBody s (c :: earlier)) :
    Outcome.Agree (fun s member => Nested.PlainBody s (c.addMember member.1 member.2 :: earlier))
      (s.readLine count
        (line, Text.row ("" :: Nested.memberWord m.kind :: m.descriptor.text :: m.texts)))
      (m.read line) := by
  have hfits : Fits (Nested.memberWord m.kind :: m.descriptor.text :: m.texts) := by
    refine Fits.cons ?_ (fits_texts m.descriptor.plain _)
    cases m.kind <;> exact plain_of_all rfl
  rw [Nested.readLine_member h.outside count line hfits, Nested.State.addMember, h.classes]
  dsimp only
  rw [if_neg (not_not.2 m.length_texts), read]
  by_cases hdesc : m.descriptor.text = ""
  · rw [if_pos hdesc, if_pos hdesc]
    exact Outcome.Agree.error _
  · rw [if_neg hdesc, if_neg hdesc]
    cases readNames count line m.texts with
    | error e => exact Outcome.Agree.error e
    | ok names =>
        refine Outcome.Agree.ok ⟨⟨h.escaped, ?_⟩, rfl⟩
        dsimp only
        rw [Nested.map_cellText (by exact h.escaped), Nested.State.cellText,
          if_neg (by rw [h.escaped]; exact Bool.false_ne_true)]

theorem foldlM_members (line : Nat) (members : List (MemberSheet count)) {s : Nested.State}
    {c : ClassRow} {earlier : List ClassRow} (h : Nested.PlainBody s (c :: earlier)) :
    Outcome.Agree
      (fun s rows => Nested.PlainBody s (rows.foldl (fun c m => c.addMember m.1 m.2) c :: earlier))
      ((Text.numberFrom line ((members.map fun m =>
        "" :: Nested.memberWord m.kind :: m.descriptor.text :: m.texts).map Text.row)).foldlM
          (Nested.State.readLine count) s)
      (readMembers line members) := by
  induction members generalizing line s c with
  | nil => exact Outcome.Agree.ok h
  | cons m later ih =>
      rw [List.map_cons, List.map_cons, Text.numberFrom_cons, List.foldlM_cons, readMembers]
      refine (m.readLine_nested line h).bind fun s' member hs' => ?_
      exact (ih (line + 1) hs').thenReturn fun _ _ hlater => hlater

/-- The nested reader reads the rows of a class as a block. -/
theorem ClassSheet.foldlM_nested (line : Nat) (c : ClassSheet count) {s : Nested.State}
    {classes : List ClassRow} (h : Nested.Plain s classes) :
    Outcome.Agree (fun s block => Nested.Plain s (Block.nested block :: classes))
      ((Text.numberFrom line (c.nestedRows.map Text.row)).foldlM (Nested.State.readLine count) s)
      (c.read line) := by
  have hfits : Fits ("c" :: c.texts) := fits_texts (plain_of_all rfl) _
  have hclass : Outcome.Agree
      (fun s names => Nested.PlainBody s ({ line, names } :: classes))
      (s.readLine count (line, Text.row ("c" :: c.texts))) (readNames count line c.texts) := by
    rw [Nested.readLine_class s count line hfits, Nested.State.addClass]
    cases readNames count line c.texts with
    | error e => exact Outcome.Agree.error e
    | ok names =>
        refine Outcome.Agree.ok ⟨⟨h.escaped, ?_⟩, rfl⟩
        dsimp only
        rw [Nested.map_cellText (by exact h.escaped), h.classes]
  rw [nestedRows, List.map_cons, Text.numberFrom_cons, List.foldlM_cons, read]
  refine hclass.bind fun s' names hs' => ?_
  exact (foldlM_members (line + 1) c.members hs').thenReturn fun _ _ hmembers => hmembers.toPlain

theorem foldlM_nestedRows (line : Nat) (sheets : List (ClassSheet count)) {s : Nested.State}
    {classes : List ClassRow} (h : Nested.Plain s classes) :
    Outcome.Agree
      (fun s blocks => Nested.Plain s ((blocks.map Block.nested).reverse ++ classes))
      ((Text.numberFrom line ((sheets.flatMap ClassSheet.nestedRows).map Text.row)).foldlM
        (Nested.State.readLine count) s)
      (readBlocks line sheets) := by
  induction sheets generalizing line s classes with
  | nil => exact Outcome.Agree.ok h
  | cons c later ih =>
      have hlen : (c.nestedRows.map Text.row).length = 1 + c.members.length := by
        rw [ClassSheet.nestedRows, List.length_map, List.length_cons, List.length_map,
          Nat.add_comm]
      rw [List.flatMap_cons, List.map_append, Text.numberFrom_append, List.foldlM_append, hlen,
        ← Nat.add_assoc, readBlocks]
      refine (c.foldlM_nested line h).bind fun s' block hs' => ?_
      refine (ih (line + 1 + c.members.length) hs').thenReturn fun _ blocks hlater => ?_
      rw [List.map_cons, List.reverse_cons, List.append_assoc]
      exact hlater

end Reading

-- ── Regrouping ───────────────────────────────────────────────────────────────

/-- The class row has no members. -/
def ClassRow.Bare (c : ClassRow) : Prop := c.fields = [] ∧ c.methods = []

/-- Gives a member to the first class row with the owner's name, if there is one. -/
def give (owner : String) (kind : MemberKind) (m : MemberRow) : List ClassRow → List ClassRow
  | [] => []
  | c :: later =>
    if c.firstName = owner then c.addMember kind m :: later else c :: give owner kind m later

/-- Gives members, each to the first class row with its owner's name. -/
def giveEach (members : List (MemberKind × String × MemberRow)) (classes : List ClassRow) :
    List ClassRow :=
  members.foldl (fun classes e => give e.2.1 e.1 e.2.2 classes) classes

section Giving

variable {owner : String} {kind : MemberKind} {m : MemberRow}

theorem ClassRow.firstName_addMember (c : ClassRow) (kind : MemberKind) (m : MemberRow) :
    (c.addMember kind m).firstName = c.firstName := by
  cases kind <;> rfl

theorem names_give (owner : String) (kind : MemberKind) (m : MemberRow)
    (classes : List ClassRow) :
    (give owner kind m classes).map ClassRow.names = classes.map ClassRow.names := by
  induction classes with
  | nil => rfl
  | cons c later ih =>
      rw [give]
      by_cases hname : c.firstName = owner
      · rw [if_pos hname, List.map_cons, List.map_cons, ClassRow.names_addMember]
      · rw [if_neg hname, List.map_cons, List.map_cons, ih]

theorem firstNames_give (owner : String) (kind : MemberKind) (m : MemberRow)
    (classes : List ClassRow) :
    (give owner kind m classes).map ClassRow.firstName = classes.map ClassRow.firstName := by
  have hnames := congrArg (List.map fun names => names.headD "") (names_give owner kind m classes)
  rwa [List.map_map, List.map_map] at hnames

/-- A row that a member may have been given to was there before, or has the owner's name. -/
theorem mem_give {d : ClassRow} {classes : List ClassRow} (h : d ∈ give owner kind m classes) :
    d ∈ classes ∨ d.firstName = owner := by
  induction classes with
  | nil => exact nomatch h
  | cons c later ih =>
      rw [give] at h
      by_cases hname : c.firstName = owner
      · rw [if_pos hname] at h
        rcases List.mem_cons.1 h with rfl | h
        · exact .inr ((ClassRow.firstName_addMember ..).trans hname)
        · exact .inl (List.mem_cons_of_mem _ h)
      · rw [if_neg hname] at h
        rcases List.mem_cons.1 h with rfl | h
        · exact .inl List.mem_cons_self
        · exact (ih h).imp_left (List.mem_cons_of_mem _)

theorem giveTo_eq_give {classes : List ClassRow} (h : owner ∈ classes.map ClassRow.firstName) :
    Flat.giveTo owner kind m classes = some (give owner kind m classes) := by
  induction classes with
  | nil => exact nomatch h
  | cons c later ih =>
      rw [Flat.giveTo, give]
      by_cases hname : c.firstName = owner
      · rw [if_pos hname, if_pos hname]
      · rw [if_neg hname, if_neg hname]
        rcases List.mem_cons.1 h with heq | h
        · exact absurd heq.symm hname
        · rw [ih h]
          rfl

/-- The flat reader finds the class of every member whose owner has a row. -/
theorem giveAll_eq_giveEach {members : List (MemberKind × String × MemberRow)}
    {classes : List ClassRow}
    (h : ∀ e ∈ members, e.2.1 ∈ classes.map ClassRow.firstName) :
    Flat.giveAll classes members = .ok (giveEach members classes) := by
  induction members generalizing classes with
  | nil => rfl
  | cons e later ih =>
      obtain ⟨kind, owner, m⟩ := e
      rw [Flat.giveAll, giveTo_eq_give (h _ List.mem_cons_self)]
      refine ih fun e he => ?_
      rw [firstNames_give]
      exact h e (List.mem_cons_of_mem _ he)

variable {ns : Namespaces}

/-- A member that comes with its class row may as well be given to the row that this one is
    joined with. -/
theorem mergeClass_addMember (ns : Namespaces) (c : ClassRow) (kind : MemberKind) (m : MemberRow)
    (merged : List ClassRow) :
    mergeClass ns (c.addMember kind m) merged
      = (mergeClass ns c merged).map (give c.firstName kind m) := by
  induction merged with
  | nil =>
      show Except.ok [c.addMember kind m] = .ok (give c.firstName kind m [c])
      rw [give, if_pos rfl]
  | cons d later ih =>
      rw [mergeClass, mergeClass, ClassRow.firstName_addMember]
      by_cases hname : d.firstName = c.firstName
      · rw [if_pos hname, if_pos hname, ClassRow.names_addMember]
        have hline : (c.addMember kind m).line = c.line := by cases kind <;> rfl
        rw [hline]
        cases checkSame ns .ofClass c.line d.names c.names with
        | error e => rfl
        | ok _ =>
            show Except.ok _ = .ok (give c.firstName kind m (d.extend c :: later))
            rw [give, if_pos (show (d.extend c).firstName = c.firstName from hname)]
            cases kind <;> simp [ClassRow.addMember, ClassRow.extend]
      · rw [if_neg hname, if_neg hname, ih]
        cases mergeClass ns c later with
        | error e => rfl
        | ok out =>
            show Except.ok _ = .ok (give c.firstName kind m (d :: out))
            rw [give, if_neg hname]

/-- A class row without members can be joined before or after a member is given. -/
theorem mergeClass_give {c : ClassRow} (hbare : c.firstName = owner → c.Bare)
    {merged : List ClassRow} (howner : owner ∈ merged.map ClassRow.firstName) :
    mergeClass ns c (give owner kind m merged)
      = (mergeClass ns c merged).map (give owner kind m) := by
  induction merged with
  | nil => exact nomatch howner
  | cons d later ih =>
      rw [give]
      by_cases hd : d.firstName = owner
      · rw [if_pos hd, mergeClass, mergeClass, ClassRow.firstName_addMember,
          ClassRow.names_addMember]
        by_cases hname : d.firstName = c.firstName
        · rw [if_pos hname, if_pos hname]
          obtain ⟨hfields, hmethods⟩ := hbare (hname.symm.trans hd)
          cases checkSame ns .ofClass c.line d.names c.names with
          | error e => rfl
          | ok _ =>
              show Except.ok _ = .ok (give owner kind m (d.extend c :: later))
              rw [give, if_pos (show (d.extend c).firstName = owner from hd)]
              cases kind <;> simp [ClassRow.addMember, ClassRow.extend, hfields, hmethods]
        · rw [if_neg hname, if_neg hname]
          cases mergeClass ns c later with
          | error e => rfl
          | ok out =>
              show Except.ok _ = .ok (give owner kind m (d :: out))
              rw [give, if_pos hd]
      · rw [if_neg hd, mergeClass, mergeClass]
        have hlater : owner ∈ later.map ClassRow.firstName := by
          rcases List.mem_cons.1 howner with heq | hmem
          · exact absurd heq.symm hd
          · exact hmem
        by_cases hname : d.firstName = c.firstName
        · rw [if_pos hname, if_pos hname]
          cases checkSame ns .ofClass c.line d.names c.names with
          | error e => rfl
          | ok _ =>
              show Except.ok (d.extend c :: give owner kind m later)
                = .ok (give owner kind m (d.extend c :: later))
              rw [give, if_neg (show ¬ (d.extend c).firstName = owner from hd)]
        · rw [if_neg hname, if_neg hname, ih hlater]
          cases mergeClass ns c later with
          | error e => rfl
          | ok out =>
              show Except.ok _ = .ok (give owner kind m (d :: out))
              rw [give, if_neg hd]

/-- Joining a class row leaves every first name in place and adds that of the row. -/
theorem mem_firstNames_mergeClass {c : ClassRow} {merged out : List ClassRow}
    (h : mergeClass ns c merged = .ok out) {name : String} :
    name ∈ out.map ClassRow.firstName
      ↔ name ∈ merged.map ClassRow.firstName ∨ name = c.firstName := by
  rcases mergeClass_eq_ok h with ⟨-, rfl⟩ | ⟨before, d, after, rfl, hd, -, rfl⟩
  · rw [List.map_append, List.mem_append, List.map_singleton, List.mem_singleton]
  · rw [firstNames_extend]
    refine ⟨.inl, fun hmem => hmem.elim id fun heq => ?_⟩
    rw [heq, ← hd]
    exact List.mem_map.2 ⟨d, List.mem_append_right _ List.mem_cons_self, rfl⟩

/-- Joins class rows, one after the other, with those that are there. -/
def mergeOnto (ns : Namespaces) (merged rows : List ClassRow) : Except Error (List ClassRow) :=
  rows.foldlM (fun merged row => mergeClass ns row merged) merged

theorem mergeOnto_cons (ns : Namespaces) (merged : List ClassRow) (c : ClassRow)
    (later : List ClassRow) :
    mergeOnto ns merged (c :: later)
      = mergeClass ns c merged >>= fun out => mergeOnto ns out later :=
  List.foldlM_cons

/-- A member can be given before or after rows are joined of which none brings members to its
    owner. -/
theorem mergeOnto_give {rows merged : List ClassRow}
    (hbare : ∀ c ∈ rows, c.firstName = owner → c.Bare)
    (howner : owner ∈ merged.map ClassRow.firstName) :
    mergeOnto ns (give owner kind m merged) rows
      = (mergeOnto ns merged rows).map (give owner kind m) := by
  induction rows generalizing merged with
  | nil => rfl
  | cons c later ih =>
      rw [mergeOnto_cons, mergeOnto_cons, mergeClass_give (hbare c List.mem_cons_self) howner]
      cases hmerge : mergeClass ns c merged with
      | error e => rfl
      | ok out =>
          exact ih (fun d hd => hbare d (List.mem_cons_of_mem _ hd))
            ((mem_firstNames_mergeClass hmerge).2 (.inl howner))

/-- Of the rows with one first name, only the first has members. -/
def FirstHolds (rows : List ClassRow) : Prop :=
  rows.Pairwise fun a b => a.firstName = b.firstName → b.Bare

theorem FirstHolds.give {rows : List ClassRow} (h : FirstHolds rows) :
    FirstHolds (give owner kind m rows) := by
  induction rows with
  | nil => exact h
  | cons c later ih =>
      obtain ⟨hfirst, hlater⟩ := List.pairwise_cons.1 h
      rw [Naming.give]
      by_cases hname : c.firstName = owner
      · rw [if_pos hname]
        exact List.pairwise_cons.2
          ⟨fun d hd heq => hfirst d hd ((ClassRow.firstName_addMember ..).symm.trans heq), hlater⟩
      · rw [if_neg hname]
        refine List.pairwise_cons.2 ⟨fun d hd heq => ?_, ih hlater⟩
        -- a row with the name of `c` is not the one that the member is given to
        rcases mem_give hd with hd | hd
        · exact hfirst d hd heq
        · exact absurd (heq.trans hd) hname

/-- A member may be given to the first row of its owner, or to the joined row. -/
theorem mergeOnto_give_rows {rows : List ClassRow} (h : FirstHolds rows)
    (howner : owner ∈ rows.map ClassRow.firstName) (merged : List ClassRow) :
    mergeOnto ns merged (give owner kind m rows)
      = (mergeOnto ns merged rows).map (give owner kind m) := by
  induction rows generalizing merged with
  | nil => exact nomatch howner
  | cons c later ih =>
      obtain ⟨hfirst, hlater⟩ := List.pairwise_cons.1 h
      rw [give, mergeOnto_cons]
      by_cases hname : c.firstName = owner
      · subst hname
        rw [if_pos rfl, mergeOnto_cons, mergeClass_addMember]
        cases hmerge : mergeClass ns c merged with
        | error e => rfl
        | ok out =>
            exact mergeOnto_give (fun d hd heq => hfirst d hd heq.symm)
              ((mem_firstNames_mergeClass hmerge).2 (.inr rfl))
      · rw [if_neg hname, mergeOnto_cons]
        have hmem : owner ∈ later.map ClassRow.firstName :=
          (List.mem_cons.1 howner).resolve_left fun heq => hname heq.symm
        cases mergeClass ns c merged with
        | error e => rfl
        | ok out => exact ih hlater hmem out

theorem map_giveEach_cons (e : MemberKind × String × MemberRow)
    (later : List (MemberKind × String × MemberRow)) (x : Except Error (List ClassRow)) :
    (x.map (give e.2.1 e.1 e.2.2)).map (giveEach later) = x.map (giveEach (e :: later)) := by
  cases x <;> rfl

theorem mergeOnto_giveEach {members : List (MemberKind × String × MemberRow)}
    {rows merged : List ClassRow} (hbare : ∀ c ∈ rows, c.Bare)
    (howner : ∀ e ∈ members, e.2.1 ∈ merged.map ClassRow.firstName) :
    mergeOnto ns (giveEach members merged) rows
      = (mergeOnto ns merged rows).map (giveEach members) := by
  induction members generalizing merged with
  | nil =>
      show mergeOnto ns merged rows = (mergeOnto ns merged rows).map id
      cases mergeOnto ns merged rows <;> rfl
  | cons e later ih =>
      have hgiven : ∀ e' ∈ later, e'.2.1 ∈ (give e.2.1 e.1 e.2.2 merged).map ClassRow.firstName := by
        rw [firstNames_give]
        exact fun e' he' => howner e' (List.mem_cons_of_mem _ he')
      rw [← map_giveEach_cons, ← mergeOnto_give (fun c hc _ => hbare c hc)
        (howner e List.mem_cons_self)]
      exact ih hgiven

theorem mergeOnto_giveEach_rows {members : List (MemberKind × String × MemberRow)}
    {rows : List ClassRow} (h : FirstHolds rows)
    (howner : ∀ e ∈ members, e.2.1 ∈ rows.map ClassRow.firstName) (merged : List ClassRow) :
    mergeOnto ns merged (giveEach members rows)
      = (mergeOnto ns merged rows).map (giveEach members) := by
  induction members generalizing rows with
  | nil =>
      show mergeOnto ns merged rows = (mergeOnto ns merged rows).map id
      cases mergeOnto ns merged rows <;> rfl
  | cons e later ih =>
      have hgiven : ∀ e' ∈ later, e'.2.1 ∈ (give e.2.1 e.1 e.2.2 rows).map ClassRow.firstName := by
        rw [firstNames_give]
        exact fun e' he' => howner e' (List.mem_cons_of_mem _ he')
      rw [← map_giveEach_cons, ← mergeOnto_give_rows h (howner e List.mem_cons_self)]
      exact ih h.give hgiven

end Giving

section Blocks

variable {ns : Namespaces}

/-- Joining a class row with its members is joining the row, then giving the members. -/
theorem mergeClass_nested (b : Block) (merged : List ClassRow) :
    mergeClass ns b.nested merged = (mergeClass ns b.row merged).map (giveEach b.owned) := by
  obtain ⟨row, members⟩ := b
  rw [Block.nested, Block.owned]
  dsimp only
  induction members generalizing row with
  | nil =>
      show mergeClass ns row merged = (mergeClass ns row merged).map id
      cases mergeClass ns row merged <;> rfl
  | cons m later ih =>
      rw [List.foldl_cons, ih, mergeClass_addMember, ClassRow.firstName_addMember, List.map_cons,
        ← map_giveEach_cons]

/-- The owner of a block's members has the name of its row. -/
theorem Block.owner_eq {b : Block} {e : MemberKind × String × MemberRow} (h : e ∈ b.owned) :
    e.2.1 = b.row.firstName := by
  obtain ⟨m, -, rfl⟩ := List.mem_map.1 h
  rfl

/-- Members that stay in their blocks may as well be given once all rows are joined. -/
theorem mergeOnto_nested {blocks : List Block} (hbare : ∀ b ∈ blocks, b.row.Bare)
    (merged : List ClassRow) :
    mergeOnto ns merged (blocks.map Block.nested)
      = (mergeOnto ns merged (blocks.map Block.row)).map
          (giveEach (blocks.flatMap Block.owned)) := by
  induction blocks generalizing merged with
  | nil => rfl
  | cons b later ih =>
      have hlater : ∀ b' ∈ later, b'.row.Bare := fun b' hb' => hbare b' (List.mem_cons_of_mem _ hb')
      rw [List.map_cons, List.map_cons, mergeOnto_cons, mergeOnto_cons, mergeClass_nested]
      cases hmerge : mergeClass ns b.row merged with
      | error e => rfl
      | ok out =>
          have hrows : ∀ c ∈ later.map Block.row, c.Bare := by
            intro c hc
            obtain ⟨b', hb', rfl⟩ := List.mem_map.1 hc
            exact hlater b' hb'
          have howner : ∀ e ∈ b.owned, e.2.1 ∈ out.map ClassRow.firstName := fun e he =>
            (mem_firstNames_mergeClass hmerge).2 (.inr (Block.owner_eq he))
          show mergeOnto ns (giveEach b.owned out) (later.map Block.nested)
            = (mergeOnto ns out (later.map Block.row)).map (giveEach (b.owned ++ _))
          rw [ih hlater, mergeOnto_giveEach hrows howner]
          cases mergeOnto ns out (later.map Block.row) with
          | error e => rfl
          | ok rows => exact congrArg Except.ok List.foldl_append.symm

/-- The owners of all members have rows. -/
theorem owner_mem_rows (blocks : List Block) :
    ∀ e ∈ blocks.flatMap Block.owned,
      e.2.1 ∈ (blocks.map Block.row).map ClassRow.firstName := by
  intro e he
  obtain ⟨b, hb, he⟩ := List.mem_flatMap.1 he
  rw [Block.owner_eq he]
  exact List.mem_map_of_mem (List.mem_map_of_mem hb)

/-- Members in their blocks or given to the first row of their class: the joined classes are
    the same, and so is the first fault. -/
theorem mergeClasses_regrouped {blocks : List Block} (hbare : ∀ b ∈ blocks, b.row.Bare) :
    mergeClasses ns (blocks.map Block.nested)
      = mergeClasses ns (giveEach (blocks.flatMap Block.owned) (blocks.map Block.row)) := by
  have hfirst : FirstHolds (blocks.map Block.row) := by
    refine List.pairwise_of_forall_mem_list fun a _ c hc _ => ?_
    obtain ⟨b, hb, rfl⟩ := List.mem_map.1 hc
    exact hbare b hb
  calc mergeClasses ns (blocks.map Block.nested)
      = (mergeOnto ns [] (blocks.map Block.row)).map (giveEach (blocks.flatMap Block.owned)) :=
        mergeOnto_nested hbare []
    _ = mergeClasses ns (giveEach (blocks.flatMap Block.owned) (blocks.map Block.row)) :=
        (mergeOnto_giveEach_rows hfirst (owner_mem_rows blocks) []).symm

theorem classRows_rows (blocks : List Block) :
    Flat.classRows (blocks.flatMap Block.rows) = blocks.map Block.row := by
  induction blocks with
  | nil => rfl
  | cons b later ih =>
      have hblock : Flat.classRows b.rows = [b.row] := by
        simp [Flat.classRows, Block.rows, List.filterMap_map]
      rw [List.flatMap_cons, List.map_cons, ← ih]
      exact List.filterMap_append.trans (congrArg (· ++ Flat.classRows _) hblock)

theorem memberRows_rows (blocks : List Block) :
    Flat.memberRows (blocks.flatMap Block.rows) = blocks.flatMap Block.owned := by
  induction blocks with
  | nil => rfl
  | cons b later ih =>
      have hblock : Flat.memberRows b.rows = b.owned := by
        simp [Flat.memberRows, Block.rows, Block.owned, List.filterMap_map]
      rw [List.flatMap_cons, List.flatMap_cons, ← ih]
      exact List.filterMap_append.trans (congrArg (· ++ Flat.memberRows _) hblock)

end Blocks

-- ── Loading ──────────────────────────────────────────────────────────────────

/-- Class rows that were read have no members yet. -/
theorem bare_of_readBlocks {count line : Nat} {classes : List (ClassSheet count)}
    {blocks : List Block} (h : readBlocks line classes = .ok blocks) : ∀ b ∈ blocks, b.row.Bare := by
  induction classes generalizing line blocks with
  | nil =>
      cases h
      exact fun b hb => nomatch hb
  | cons c later ih =>
      obtain ⟨block, hblock, h⟩ := Outcome.bind_eq_ok.1 h
      obtain ⟨rest, hrest, h⟩ := Outcome.bind_eq_ok.1 h
      cases h
      intro b hb
      rcases List.mem_cons.1 hb with rfl | hb
      · obtain ⟨names, -, hblock⟩ := Outcome.bind_eq_ok.1 hblock
        obtain ⟨members, -, hblock⟩ := Outcome.bind_eq_ok.1 hblock
        cases hblock
        exact ⟨rfl, rfl⟩
      · exact ih hrest b hb

section Loading

variable (sheet : Sheet)

/-- What the flat reader makes of a sheet. -/
theorem Document.read_flatText :
    Document.read sheet.flatText = do
      let namespaces ← Namespaces.declare (Cell.texts sheet.labels)
      let blocks ← readBlocks 2 sheet.classes
      return {
        format := .tinyV1
        namespaces
        classes := giveEach (blocks.flatMap Block.owned) (blocks.map Block.row) } := by
  have hheader : Fits ("v1" :: Cell.texts sheet.labels) := fits_texts (plain_of_all rfl) _
  have hlines : Text.numberedLines sheet.flatText.toList
      = (1, Text.row ("v1" :: Cell.texts sheet.labels))
        :: Text.numberFrom 2 ((sheet.classes.flatMap ClassSheet.flatRows).map Text.row) := by
    refine numberedLines_layOut fun cells hcells => ?_
    rcases List.mem_cons.1 hcells with rfl | hcells
    · exact hheader
    · obtain ⟨c, -, hcells⟩ := List.mem_flatMap.1 hcells
      exact c.fits_flatRows cells hcells
  rw [Document.read, hlines]
  dsimp only [Format.detect]
  rw [hheader.cells_row]
  show Flat.read _ _ = _
  rw [Flat.read, hheader.cells_row]
  show Namespaces.declare (Cell.texts sheet.labels) >>= _ = _
  cases hdeclare : Namespaces.declare (Cell.texts sheet.labels) with
  | error e => rfl
  | ok namespaces =>
      have hsize : namespaces.size = sheet.labels.length := by
        rw [Namespaces.size, (Namespaces.declare_eq_ok hdeclare).1, Cell.texts, List.length_map]
      have hcount : sheet.labels.length ≠ 0 := fun h => sheet.declared (List.length_eq_zero_iff.1 h)
      show Flat.readRows namespaces.size _ >>= _ = _
      rw [hsize, readRows_flatRows hcount]
      cases readBlocks 2 sheet.classes with
      | error e => rfl
      | ok blocks =>
          show Flat.giveAll (Flat.classRows (blocks.flatMap Block.rows))
            (Flat.memberRows (blocks.flatMap Block.rows)) >>= _ = _
          rw [classRows_rows, memberRows_rows, giveAll_eq_giveEach (owner_mem_rows blocks)]
          rfl

/-- What the nested reader makes of a sheet. -/
theorem Document.read_nestedText :
    Document.read sheet.nestedText = do
      let namespaces ← Namespaces.declare (Cell.texts sheet.labels)
      let blocks ← readBlocks 2 sheet.classes
      return { format := .tinyV2, namespaces, classes := blocks.map Block.nested } := by
  have hheader : Fits ("tiny" :: "2" :: "0" :: Cell.texts sheet.labels) :=
    Fits.cons (plain_of_all rfl) (Fits.cons (plain_of_all rfl) (fits_texts (plain_of_all rfl) _))
  have hlines : Text.numberedLines sheet.nestedText.toList
      = (1, Text.row ("tiny" :: "2" :: "0" :: Cell.texts sheet.labels))
        :: Text.numberFrom 2 ((sheet.classes.flatMap ClassSheet.nestedRows).map Text.row) := by
    refine numberedLines_layOut fun cells hcells => ?_
    rcases List.mem_cons.1 hcells with rfl | hcells
    · exact hheader
    · obtain ⟨c, -, hcells⟩ := List.mem_flatMap.1 hcells
      exact c.fits_nestedRows cells hcells
  have hcolumns : ¬ ("tiny" :: "2" :: "0" :: Cell.texts sheet.labels).length < 4 := by
    have hpos := List.length_pos_iff.2 sheet.declared
    simp only [List.length_cons, Cell.texts, List.length_map]
    omega
  rw [Document.read, hlines]
  dsimp only [Format.detect]
  rw [hheader.cells_row]
  show Nested.read _ _ = _
  rw [Nested.read, hheader.cells_row, if_neg hcolumns]
  show Namespaces.declare (Cell.texts sheet.labels) >>= _ = _
  cases hdeclare : Namespaces.declare (Cell.texts sheet.labels) with
  | error e => rfl
  | ok namespaces =>
      have hsize : namespaces.size = sheet.labels.length := by
        rw [Namespaces.size, (Namespaces.declare_eq_ok hdeclare).1, Cell.texts, List.length_map]
      have hstart : Nested.Plain {} [] := ⟨rfl, rfl⟩
      have hbody := foldlM_nestedRows 2 sheet.classes hstart
      show List.foldlM (Nested.State.readLine namespaces.size) {} _ >>= _
        = readBlocks 2 sheet.classes >>= _
      rw [hsize]
      refine hbody.bind_eq fun s blocks hplain => ?_
      rw [hplain.classes, List.append_nil, List.reverse_reverse]

end Loading

/-- **The layout does not matter.** A sheet that is laid out nested gives the catalog that it
    gives laid out flat, but for the format and the fingerprint, or the same fault on the same
    line. -/
theorem Catalog.load_nestedText (sheet : Sheet) :
    load sheet.nestedText = (load sheet.flatText).map fun catalog =>
      { catalog with
        format := .tinyV2
        fingerprint := Digest.fingerprintOf sheet.nestedText } := by
  rw [load, load, Document.read_flatText, Document.read_nestedText]
  cases Namespaces.declare (Cell.texts sheet.labels) with
  | error e => rfl
  | ok namespaces =>
      cases hblocks : readBlocks 2 sheet.classes with
      | error e => rfl
      | ok blocks =>
          have hmerge : mergeClasses namespaces (blocks.map Block.nested) = mergeClasses namespaces
              (giveEach (blocks.flatMap Block.owned) (blocks.map Block.row)) :=
            mergeClasses_regrouped (bare_of_readBlocks hblocks)
          have hentries : Document.entries
                { format := .tinyV2, namespaces, classes := blocks.map Block.nested }
              = Document.entries {
                  format := .tinyV1
                  namespaces
                  classes := giveEach (blocks.flatMap Block.owned) (blocks.map Block.row) } := by
            rw [Document.entries, Document.entries, mergeRows, mergeRows, hmerge]
          show Document.entries _ >>= _ = Except.map _ (Document.entries _ >>= _)
          rw [hentries]
          cases Document.entries _ <;> rfl

/-- A class with one method, and a class whose second name contains a backslash. -/
def pairedSheet : Sheet where
  labels := [⟨"a", by simp⟩, ⟨"b", by simp⟩]
  declared := nofun
  classes := [
    { names := #v[⟨"x", by simp⟩, ⟨"p/X", by simp⟩]
      members := [{
        kind := .method
        descriptor := ⟨"(Lx;)V", by simp⟩
        names := #v[⟨"m", by simp⟩, ⟨"run", by simp⟩] }] },
    { names := #v[⟨"y", by simp⟩, ⟨"p/\\Y", by simp⟩]
      members := [] }]

example : pairedSheet.flatText
    = "v1\ta\tb\nCLASS\tx\tp/X\nMETHOD\tx\t(Lx;)V\tm\trun\nCLASS\ty\tp/\\Y\n" := by
  decide +kernel

example : pairedSheet.nestedText
    = "tiny\t2\t0\ta\tb\nc\tx\tp/X\n\tm\t(Lx;)V\tm\trun\nc\ty\tp/\\Y\n" := by
  decide +kernel

end Nomenclator.Naming
