import Nomenclator.Proofs.LineTable
import Nomenclator.Proofs.Outcome
import Nomenclator.Proofs.Text.Decimal
import Nomenclator.Proofs.Text.Lines

/-! # Line tables as texts — which of them are read back

    A table is written block by block, and the reader tells the lines of a block
    apart by how they start.  The route:

    * the text of a table is a list of lines, each ended by a line feed, and no line
      ends in a carriage return, since every line ends in a digit or is empty;
    * the lines of a block are read as `insert` of its class (`foldlM_block`), so the
      blocks of a table give back what was inserted;
    * whatever is read, every class of the table was named in one column of one
      line (`legible_of_parse`).

    So a table is read back exactly when its classes can be named in this way. -/

namespace Nomenclator.LineTable

/-- The name can stand in one column of one line. -/
def Legible (name : String) : Prop := name ≠ "" ∧ '\t' ∉ name.toList ∧ '\n' ∉ name.toList

instance (name : String) : Decidable (Legible name) :=
  inferInstanceAs (Decidable (name ≠ "" ∧ '\t' ∉ name.toList ∧ '\n' ∉ name.toList))

-- ── Numbers ──────────────────────────────────────────────────────────────────

/-- The greatest of some line numbers is a line number. -/
theorem greatest_le (lines : List UInt32) : greatest lines ≤ UInt32.size - 1 := by
  have hfold : ∀ most ≤ UInt32.size - 1,
      lines.foldl (fun most line => max most line.toNat) most ≤ UInt32.size - 1 := by
    induction lines with
    | nil => exact fun most h => h
    | cons line later ih =>
        intro most h
        have hline := line.toNat_lt_size
        exact ih _ (Nat.max_le.2 ⟨h, by omega⟩)
  exact hfold 0 (Nat.zero_le _)

theorem readNumber_decimal (line : Nat) {n : Nat} (h : n ≤ UInt32.size - 1) :
    readNumber line (Text.decimal n) = .ok (UInt32.ofNat n) := by
  rw [readNumber, Text.readDecimal_decimal h]

/-- Two numbers in two columns are read back. -/
theorem readPair_renderPair (line : Nat) {source dest : Nat} (hsource : source ≤ UInt32.size - 1)
    (hdest : dest ≤ UInt32.size - 1) :
    readPair line (renderPair source dest) = .ok (UInt32.ofNat source, UInt32.ofNat dest) := by
  have hsplit : Text.splitOnce '\t' (renderPair source dest)
      = some (Text.decimal source, Text.decimal dest) :=
    Text.splitOnce_append (Text.not_mem_decimal rfl source) _
  rw [readPair, hsplit]
  dsimp only
  rw [readNumber_decimal line hsource, readNumber_decimal line hdest]
  rfl

theorem pieces_renderPair (source dest : Nat) :
    Text.pieces '\t' (renderPair source dest) = [Text.decimal source, Text.decimal dest] := by
  rw [renderPair, Text.pieces_append (Text.not_mem_decimal rfl source),
    Text.pieces_of_not_mem (Text.not_mem_decimal rfl dest)]

theorem not_mem_renderPair {c : Char} (hdigit : c.isDigit = false) (htab : c ≠ '\t')
    (source dest : Nat) : c ∉ renderPair source dest := by
  rw [renderPair, List.mem_append, List.mem_cons]
  rintro (hmem | heq | hmem)
  · exact Text.not_mem_decimal hdigit source hmem
  · exact htab heq
  · exact Text.not_mem_decimal hdigit dest hmem

/-- A line that ends in two numbers does not end in a carriage return. -/
theorem dropReturn_renderPair (front : List Char) (source dest : Nat) :
    Text.dropReturn (front ++ renderPair source dest) = front ++ renderPair source dest := by
  have hne : renderPair source dest ≠ [] :=
    List.append_ne_nil_of_right_ne_nil _ (List.cons_ne_nil _ _)
  rw [Text.dropReturn, List.getLast?_append_of_ne_nil _ hne, if_neg]
  intro hlast
  exact not_mem_renderPair rfl (by decide) source dest (List.mem_of_getLast? hlast)

-- ── Lines of a block ─────────────────────────────────────────────────────────

/-- The line that starts a block. -/
def headerLine (name : String) (rows : LineRows) : List Char :=
  (name.toList ++ ['\t']) ++ renderPair (greatest rows.keys) (greatest rows.values)

/-- The line of a row. -/
def rowLine (row : UInt32 × UInt32) : List Char := ['\t'] ++ renderPair row.1.toNat row.2.toNat

/-- The lines of a block. -/
def blockLines (name : String) (rows : LineRows) : List (List Char) :=
  headerLine name rows :: (rows.toList.map rowLine ++ [[]])

/-- The lines of a table. -/
def tableLines (table : LineTable) : List (List Char) :=
  table.classes.toList.flatMap fun (name, rows) => blockLines name rows

theorem renderClass_eq (name : String) (rows : LineRows) :
    renderClass name rows = Text.ended (blockLines name rows) := by
  rw [renderClass, blockLines, Text.ended, List.flatMap_cons, List.flatMap_append,
    List.flatMap_map, headerLine]
  simp only [List.append_assoc, List.cons_append, List.flatMap_cons,
    List.flatMap_nil, List.nil_append, List.append_nil]
  rfl

/-- A table is written line by line. -/
theorem render_eq (table : LineTable) :
    table.render.toList = Text.ended table.tableLines := by
  rw [render, String.toList_ofList, tableLines, Text.ended, List.flatMap_assoc]
  exact List.flatMap_congr fun e _ => renderClass_eq e.1 e.2

/-- The lines of a table are read off its text, if no name holds a line feed. -/
theorem numberedLines_render {table : LineTable}
    (h : ∀ name ∈ table.classes.keys, '\n' ∉ name.toList) :
    Text.numberedLines table.render.toList = Text.numberFrom 1 table.tableLines := by
  rw [render_eq]
  refine Text.numberedLines_ended_of_clean fun line hline => ?_
  obtain ⟨⟨name, rows⟩, he, hline⟩ := List.mem_flatMap.1 hline
  have hname : '\n' ∉ name.toList := h name (List.mem_map_of_mem he)
  rcases List.mem_cons.1 hline with rfl | hline
  · refine ⟨?_, dropReturn_renderPair _ _ _⟩
    rw [headerLine, List.mem_append, List.mem_append, List.mem_singleton]
    rintro ((hmem | heq) | hmem)
    · exact hname hmem
    · exact absurd heq (by decide)
    · exact not_mem_renderPair rfl (by decide) _ _ hmem
  rcases List.mem_append.1 hline with hrow | hblank
  · obtain ⟨row, -, rfl⟩ := List.mem_map.1 hrow
    refine ⟨?_, dropReturn_renderPair _ _ _⟩
    rw [rowLine, List.mem_append, List.mem_singleton]
    rintro (heq | hmem)
    · exact absurd heq (by decide)
    · exact not_mem_renderPair rfl (by decide) _ _ hmem
  · rw [List.mem_singleton.1 hblank]
    exact ⟨List.not_mem_nil, rfl⟩

-- ── Reading a block ──────────────────────────────────────────────────────────

theorem readHeader_headerLine (line : Nat) {name : String} (h : Legible name) (rows : LineRows) :
    readHeader line (headerLine name rows) = .ok name := by
  have hpieces : Text.pieces '\t' (headerLine name rows)
      = [name.toList, Text.decimal (greatest rows.keys), Text.decimal (greatest rows.values)] := by
    rw [headerLine, List.append_assoc, List.singleton_append, Text.pieces_append h.2.1,
      pieces_renderPair]
  have hempty : ¬ name.toList.isEmpty = true := by
    rw [List.isEmpty_iff, String.toList_eq_nil_iff]
    exact h.1
  rw [readHeader, hpieces]
  dsimp only
  rw [if_neg hempty]
  have hpair := readPair_renderPair line (greatest_le rows.keys) (greatest_le rows.values)
  rw [renderPair] at hpair
  rw [hpair]
  exact congrArg Except.ok String.ofList_toList

/-- The first line of a block starts a class. -/
theorem readLine_headerLine (r : Reading) (line : Nat) {name : String} (h : Legible name)
    (rows : LineRows) :
    readLine r (line, headerLine name rows)
      = .ok { table := r.table.insert name .empty, current := some name } := by
  have hheader := readHeader_headerLine line h rows
  -- the name gives the line a first character, which is no tab
  have hne : name.toList ≠ [] := fun hnil => h.1 (String.toList_eq_nil_iff.1 hnil)
  obtain ⟨first, rest, hname⟩ := List.exists_cons_of_ne_nil hne
  have hfirst : first ≠ '\t' := fun heq => h.2.1 (by rw [hname, heq]; exact List.mem_cons_self)
  rw [headerLine, hname, List.cons_append, List.cons_append] at hheader ⊢
  rw [readLine]
  · rw [hheader]
    rfl
  · exact fun heq => nomatch heq
  · exact fun row heq => hfirst (List.cons.inj heq).1

/-- The line of a row adds it to the current class. -/
theorem readLine_rowLine (table : LineTable) (name : String) (line : Nat) (row : UInt32 × UInt32) :
    readLine { table, current := some name } (line, rowLine row)
      = .ok { table := table.insert name (.ofList [row]), current := some name } := by
  have hsource := row.1.toNat_lt_size
  have hdest := row.2.toNat_lt_size
  have hpair : readPair line (renderPair row.1.toNat row.2.toNat) = .ok row := by
    rw [readPair_renderPair line (by omega) (by omega), UInt32.ofNat_toNat, UInt32.ofNat_toNat]
  rw [rowLine, List.singleton_append, readLine]
  dsimp only
  rw [hpair]
  rfl

/-- Adding a row to a class that has an entry adds it to that entry. -/
theorem insert_row (classes : SortedMap String LineRows) (name : String) (known : LineRows)
    (row : UInt32 × UInt32) :
    LineTable.insert { classes := classes.insert name known } name (.ofList [row])
      = { classes := classes.insert name (known.insert row.1 row.2) } := by
  have hknown : rowsOf { classes := classes.insert name known } name = known := by
    rw [rowsOf, SortedMap.get?_insert, if_pos rfl]
    rfl
  rw [insert, hknown, SortedMap.insert_insert]
  rfl

/-- The rows of a block are added one after the other. -/
theorem foldlM_rows (classes : SortedMap String LineRows) (name : String) (known : LineRows)
    (line : Nat) (rows : List (UInt32 × UInt32)) :
    (Text.numberFrom line (rows.map rowLine)).foldlM readLine
        { table := { classes := classes.insert name known }, current := some name }
      = .ok { table := { classes := classes.insert name (known.insertAll rows) },
              current := some name } := by
  induction rows generalizing line known with
  | nil => rfl
  | cons row later ih =>
      rw [List.map_cons, Text.numberFrom_cons, List.foldlM_cons, readLine_rowLine, insert_row]
      exact ih (known.insert row.1 row.2) (line + 1)

/-- **A block is read as the rows of its class.** -/
theorem foldlM_block (r : Reading) (line : Nat) {name : String} (h : Legible name)
    (rows : LineRows) :
    (Text.numberFrom line (blockLines name rows)).foldlM readLine r
      = .ok { table := r.table.insert name rows, current := none } := by
  have hstart : r.table.insert name .empty
      = { classes := r.table.classes.insert name (r.table.rowsOf name) } := rfl
  rw [blockLines, Text.numberFrom_cons, List.foldlM_cons, readLine_headerLine r line h rows,
    Text.numberFrom_append, hstart]
  show List.foldlM _ _ _ = _
  rw [List.foldlM_append, foldlM_rows]
  rfl

/-- The blocks of some classes are read as these classes, one after the other. -/
theorem foldlM_blocks (r : Reading) (hr : r.current = none) (line : Nat)
    {classes : List (String × LineRows)} (h : ∀ e ∈ classes, Legible e.1) :
    (Text.numberFrom line (classes.flatMap fun (name, rows) => blockLines name rows)).foldlM
        readLine r
      = .ok { table := r.table.insertEach classes, current := none } := by
  induction classes generalizing r line with
  | nil =>
      obtain ⟨table, current⟩ := r
      cases hr
      rfl
  | cons head rest ih =>
      obtain ⟨name, rows⟩ := head
      have hname : Legible name := h _ List.mem_cons_self
      rw [List.flatMap_cons, Text.numberFrom_append, List.foldlM_append,
        foldlM_block r line hname rows]
      exact ih { table := r.table.insert name rows, current := none } rfl _
        fun e he => h e (List.mem_cons_of_mem _ he)

/-- A table whose names are legible is read back. -/
theorem parse_render {table : LineTable} (h : ∀ name ∈ table.classes.keys, Legible name) :
    parse table.render = .ok table := by
  have hblocks : ∀ e ∈ table.classes.toList, Legible e.1 :=
    fun e he => h e.1 (List.mem_map_of_mem he)
  have hwhole : insertEach {} table.classes.toList = table := by
    rw [insertEach_eq (List.Perm.refl _) (SortedMap.keys_nodup table.classes),
      SortedMap.ofList_toList]
  rw [parse, numberedLines_render fun name hname => (h name hname).2.2, tableLines,
    foldlM_blocks {} rfl 1 hblocks]
  exact congrArg Except.ok hwhole

-- ── What can be read at all ──────────────────────────────────────────────────

/-- The name in a header is legible. -/
theorem legible_of_readHeader {line : Nat} {text : List Char} {name : String}
    (hfeed : '\n' ∉ text) (h : readHeader line text = .ok name) : Legible name := by
  rw [readHeader] at h
  match hpieces : Text.pieces '\t' text, h with
  | [first, second, third], h =>
      have hmem : first ∈ Text.pieces '\t' text := hpieces ▸ List.mem_cons_self
      dsimp only at h
      by_cases hempty : first.isEmpty = true
      · rw [if_pos hempty] at h
        exact nomatch h
      · rw [if_neg hempty] at h
        obtain ⟨pair, -, rfl⟩ := Outcome.map_eq_ok.1 h
        refine ⟨fun hnil => hempty ?_, ?_, ?_⟩
        · rw [List.isEmpty_iff, ← String.toList_ofList (l := first), hnil]
          rfl
        · rw [String.toList_ofList]
          exact Text.not_mem_of_mem_pieces hmem
        · rw [String.toList_ofList]
          exact fun hc => hfeed (Text.mem_of_mem_piecesWhere hmem hc).1
  | [], h => exact nomatch h
  | [_], h => exact nomatch h
  | [_, _], h => exact nomatch h
  | _ :: _ :: _ :: _ :: _, h => exact nomatch h

/-- All classes that have been read have legible names, the current one included. -/
structure Reading.NamesLegible (r : Reading) : Prop where
  classes : ∀ name ∈ r.table.classes.keys, Legible name
  current : ∀ name, r.current = some name → Legible name

/-- Reading one line leaves legible names only. -/
theorem Reading.NamesLegible.readLine {r r' : Reading} {entry : Nat × List Char}
    (hr : r.NamesLegible) (hfeed : '\n' ∉ entry.2) (h : LineTable.readLine r entry = .ok r') :
    r'.NamesLegible := by
  obtain ⟨line, text⟩ := entry
  have hadd : ∀ {name rows}, Legible name →
      ∀ other ∈ (r.table.insert name rows).classes.keys, Legible other := by
    intro name rows hname other hother
    rcases SortedMap.mem_keys_insert.1 hother with rfl | hother
    · exact hname
    · exact hr.classes other hother
  rw [LineTable.readLine.eq_def] at h
  dsimp only at h
  split at h
  · cases h
    exact ⟨hr.classes, fun name hname => nomatch hname⟩
  · next row =>
    cases hcurrent : r.current with
    | none =>
        rw [hcurrent] at h
        exact nomatch h
    | some name =>
        rw [hcurrent] at h
        obtain ⟨⟨source, dest⟩, -, rfl⟩ := Outcome.map_eq_ok.1 h
        have hname : Legible name := hr.current name hcurrent
        refine ⟨hadd hname, ?_⟩
        rintro other ⟨⟩
        exact hname
  · obtain ⟨name, hname, rfl⟩ := Outcome.map_eq_ok.1 h
    have hlegible := legible_of_readHeader hfeed hname
    refine ⟨hadd hlegible, ?_⟩
    rintro other ⟨⟩
    exact hlegible

/-- **Every table that is read has legible names.** -/
theorem legible_of_parse {text : String} {table : LineTable} (h : parse text = .ok table) :
    ∀ name ∈ table.classes.keys, Legible name := by
  obtain ⟨r, hr, rfl⟩ := Outcome.map_eq_ok.1 h
  have hstart : Reading.NamesLegible {} := ⟨fun _ h => (nomatch h), fun _ h => nomatch h⟩
  -- the lines that are still to come hold no line feed
  have hend := Outcome.foldlM_induction
    (fun later r => (∀ entry ∈ later, '\n' ∉ entry.2) ∧ Reading.NamesLegible r)
    (fun entry later s s' hs hstep => ⟨fun e he => hs.1 e (List.mem_cons_of_mem _ he),
      hs.2.readLine (hs.1 entry List.mem_cons_self) hstep⟩)
    ⟨fun _ => Text.not_mem_of_mem_numberedLines, hstart⟩ hr
  exact hend.2.classes

-- ── Both ways ────────────────────────────────────────────────────────────────

/-- **A table is read back from its text exactly when its names are legible**: not empty,
    without tab and without line feed. In particular, what was read once can be written and
    read again. -/
theorem parse_render_iff (table : LineTable) :
    (parse table.render = .ok table ↔ ∀ name ∈ table.classes.keys, Legible name)
      ∧ ∀ text, parse text = .ok table → parse table.render = .ok table :=
  ⟨⟨legible_of_parse, parse_render⟩, fun _ h => parse_render (legible_of_parse h)⟩

/-- One class in two blocks, with a carriage return in its name. -/
def split : LineTable := { classes := .ofList [("x\ry", .ofList [(5, 6), (7, 8)])] }

/-- A text that is not written in this way is written and read again. -/
theorem parse_render_iff_two_blocks :
    parse "x\ry\t0\t9\n\t+5\t06\r\n\nx\ry\t0\t0\n\t7\t8" = .ok split
      ∧ parse split.render = .ok split := by
  have hread : parse "x\ry\t0\t9\n\t+5\t06\r\n\nx\ry\t0\t0\n\t7\t8" = .ok split := by
    decide +kernel
  exact ⟨hread, (parse_render_iff split).2 _ hread⟩

-- a name that starts with a line feed is no fault, but comes back as another one
example : parse (render { classes := .ofList [("\nb", .empty)] })
    = .ok { classes := .ofList [("b", .empty)] } := by decide +kernel

end Nomenclator.LineTable
