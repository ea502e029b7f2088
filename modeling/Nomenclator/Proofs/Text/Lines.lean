import Mathlib.Data.List.TakeWhile
import Nomenclator.Text.Lines

/-! # Lines and cells — texts that are cut back into what they were made of

    A text that is put together from pieces is cut at the separator into the same
    pieces, as long as no piece holds the separator.  So rows of cells, each ended
    by a line feed, are read back as they were written (`lines_ended`,
    `cells_row`). -/

namespace Nomenclator.Text

-- ── Pieces ───────────────────────────────────────────────────────────────────

theorem piecesWhere_of_none {sep : Char → Bool} {text : List Char}
    (h : ∀ c ∈ text, sep c = false) : piecesWhere sep text = [text] := by
  induction text with
  | nil => rfl
  | cons c rest ih =>
      have hc : ¬ sep c = true := Bool.eq_false_iff.1 (h c List.mem_cons_self)
      rw [piecesWhere, if_neg hc, ih fun d hd => h d (List.mem_cons_of_mem _ hd)]

/-- A text is cut at a separator as its two sides are. -/
theorem piecesWhere_append_cons {sep : Char → Bool} (front : List Char) {c : Char}
    (hc : sep c = true) (back : List Char) :
    piecesWhere sep (front ++ c :: back) = piecesWhere sep front ++ piecesWhere sep back := by
  induction front with
  | nil =>
      show piecesWhere sep (c :: back) = [] :: piecesWhere sep back
      rw [piecesWhere, if_pos hc]
  | cons d rest ih =>
      rw [List.cons_append, piecesWhere, piecesWhere, ih]
      by_cases hd : sep d = true
      · rw [if_pos hd, if_pos hd, List.cons_append]
      · obtain ⟨piece, later, hrest⟩ := List.exists_cons_of_ne_nil (piecesWhere_ne_nil sep rest)
        rw [if_neg hd, if_neg hd, hrest]
        rfl

/-- The first separator ends the first piece. -/
theorem piecesWhere_append {sep : Char → Bool} {piece : List Char} {c : Char}
    (h : ∀ d ∈ piece, sep d = false) (hc : sep c = true) (rest : List Char) :
    piecesWhere sep (piece ++ c :: rest) = piece :: piecesWhere sep rest := by
  rw [piecesWhere_append_cons piece hc, piecesWhere_of_none h, List.singleton_append]

/-- Joined pieces are cut apart again by every separator that none of them holds. -/
theorem piecesWhere_joinWith (sep : Char → Bool) {c : Char} (hc : sep c = true)
    {parts : List (List Char)} (hne : parts ≠ []) (h : ∀ part ∈ parts, ∀ d ∈ part, sep d = false) :
    piecesWhere sep (joinWith [c] parts) = parts := by
  induction parts with
  | nil => exact absurd rfl hne
  | cons part later ih =>
      have hpart : ∀ d ∈ part, sep d = false := h part List.mem_cons_self
      cases later with
      | nil => exact piecesWhere_of_none hpart
      | cons next rest =>
          have hrest := ih (List.cons_ne_nil _ _) fun p hp => h p (List.mem_cons_of_mem _ hp)
          show piecesWhere sep (part ++ [c] ++ joinWith [c] (next :: rest)) = _
          rw [List.append_assoc, List.singleton_append, piecesWhere_append hpart hc, hrest]

theorem beq_eq_false_of_not_mem {sep : Char} {text : List Char} (h : sep ∉ text) :
    ∀ c ∈ text, (c == sep) = false :=
  fun _ hc => beq_eq_false_iff_ne.2 fun heq => h (heq ▸ hc)

theorem pieces_of_not_mem {sep : Char} {text : List Char} (h : sep ∉ text) :
    pieces sep text = [text] :=
  piecesWhere_of_none (beq_eq_false_of_not_mem h)

theorem pieces_append {sep : Char} {piece : List Char} (h : sep ∉ piece) (rest : List Char) :
    pieces sep (piece ++ sep :: rest) = piece :: pieces sep rest :=
  piecesWhere_append (beq_eq_false_of_not_mem h) (beq_self_eq_true sep) rest

/-- **Pieces that are joined are cut apart again.** -/
theorem pieces_joinWith {sep : Char} {parts : List (List Char)} (hne : parts ≠ [])
    (h : ∀ part ∈ parts, sep ∉ part) : pieces sep (joinWith [sep] parts) = parts := by
  have hsep : ∀ part ∈ parts, ∀ c ∈ part, (c == sep) = false :=
    fun part hpart => beq_eq_false_of_not_mem (h part hpart)
  exact piecesWhere_joinWith (· == sep) (beq_self_eq_true sep) hne hsep

/-- A joined text holds the separator and the characters of its pieces. -/
theorem mem_joinWith {sep : List Char} {parts : List (List Char)} {c : Char}
    (h : c ∈ joinWith sep parts) : c ∈ sep ∨ ∃ part ∈ parts, c ∈ part := by
  induction parts with
  | nil => exact nomatch h
  | cons part later ih =>
      cases later with
      | nil => exact .inr ⟨part, List.mem_cons_self, h⟩
      | cons next rest =>
          rcases List.mem_append.1 h with h | h
          · rcases List.mem_append.1 h with h | h
            · exact .inr ⟨part, List.mem_cons_self, h⟩
            · exact .inl h
          · rcases ih h with h | ⟨p, hp, hc⟩
            · exact .inl h
            · exact .inr ⟨p, List.mem_cons_of_mem _ hp, hc⟩

/-- Dropping characters of a kind from the front keeps all others. -/
theorem mem_dropWhile {p : Char → Bool} {text : List Char} {c : Char} (hmem : c ∈ text)
    (hc : p c = false) : c ∈ text.dropWhile p := by
  rw [← List.takeWhile_append_dropWhile (p := p) (l := text)] at hmem
  rcases List.mem_append.1 hmem with hfront | hback
  · rw [List.mem_takeWhile_imp hfront] at hc
    exact nomatch hc
  · exact hback

/-- A piece holds characters of the text, and none at which the text is cut. -/
theorem mem_of_mem_piecesWhere {sep : Char → Bool} {text piece : List Char} {c : Char}
    (hpiece : piece ∈ piecesWhere sep text) (hc : c ∈ piece) : c ∈ text ∧ sep c = false := by
  induction text generalizing piece with
  | nil =>
      rw [piecesWhere, List.mem_singleton] at hpiece
      rw [hpiece] at hc
      exact absurd hc List.not_mem_nil
  | cons first rest ih =>
      rw [piecesWhere] at hpiece
      by_cases hsep : sep first = true
      · rw [if_pos hsep] at hpiece
        rcases List.mem_cons.1 hpiece with rfl | hpiece
        · exact absurd hc List.not_mem_nil
        · exact ⟨List.mem_cons_of_mem _ (ih hpiece hc).1, (ih hpiece hc).2⟩
      · rw [if_neg hsep] at hpiece
        obtain ⟨front, later, hrest⟩ := List.exists_cons_of_ne_nil (piecesWhere_ne_nil sep rest)
        rw [hrest] at hpiece ih
        rcases List.mem_cons.1 hpiece with rfl | hpiece
        · rcases List.mem_cons.1 hc with rfl | hc
          · exact ⟨List.mem_cons_self, Bool.eq_false_iff.2 hsep⟩
          · have hfront := ih List.mem_cons_self hc
            exact ⟨List.mem_cons_of_mem _ hfront.1, hfront.2⟩
        · have hlater := ih (List.mem_cons_of_mem _ hpiece) hc
          exact ⟨List.mem_cons_of_mem _ hlater.1, hlater.2⟩

theorem not_mem_of_mem_pieces {sep : Char} {text piece : List Char}
    (h : piece ∈ pieces sep text) : sep ∉ piece := by
  intro hmem
  have hsep := (mem_of_mem_piecesWhere h hmem).2
  rw [beq_self_eq_true] at hsep
  exact nomatch hsep

/-- A text with one separator is cut into its two parts. -/
theorem splitOnce_append {sep : Char} {front : List Char} (h : sep ∉ front) (rest : List Char) :
    splitOnce sep (front ++ sep :: rest) = some (front, rest) := by
  induction front with
  | nil => rw [List.nil_append, splitOnce, if_pos rfl]
  | cons c later ih =>
      have hc : c ≠ sep := fun heq => h (heq ▸ List.mem_cons_self)
      rw [List.cons_append, splitOnce, if_neg hc, ih fun hmem => h (List.mem_cons_of_mem _ hmem)]
      rfl

-- ── Rows of cells ────────────────────────────────────────────────────────────

/-- The row of some cells. -/
def row (cells : List String) : List Char := joinWith ['\t'] (cells.map String.toList)

/-- A row is read back into its cells. -/
theorem cells_row {contents : List String} (hne : contents ≠ [])
    (h : ∀ cell ∈ contents, '\t' ∉ cell.toList) : cells (row contents) = contents := by
  have hparts : ∀ part ∈ contents.map String.toList, '\t' ∉ part := by
    intro part hpart
    obtain ⟨cell, hcell, rfl⟩ := List.mem_map.1 hpart
    exact h cell hcell
  rw [cells, row, pieces_joinWith (fun hnil => hne (List.map_eq_nil_iff.1 hnil)) hparts,
    List.map_map]
  exact List.map_id'' (fun _ => String.ofList_toList) contents

theorem not_mem_row {contents : List String} {c : Char} (htab : c ≠ '\t')
    (h : ∀ cell ∈ contents, c ∉ cell.toList) : c ∉ row contents := by
  intro hmem
  rcases mem_joinWith hmem with hsep | ⟨part, hpart, hc⟩
  · exact htab (List.mem_singleton.1 hsep)
  · obtain ⟨cell, hcell, rfl⟩ := List.mem_map.1 hpart
    exact h cell hcell hc

-- ── Lines ────────────────────────────────────────────────────────────────────

/-- The text of some lines, each ended by a line feed. -/
def ended (rows : List (List Char)) : List Char := rows.flatMap fun line => line ++ ['\n']

theorem pieces_ended {rows : List (List Char)} (h : ∀ line ∈ rows, '\n' ∉ line) :
    pieces '\n' (ended rows) = rows ++ [[]] := by
  induction rows with
  | nil => rfl
  | cons line later ih =>
      have hlater := ih fun l hl => h l (List.mem_cons_of_mem _ hl)
      show pieces '\n' ((line ++ ['\n']) ++ ended later) = _
      rw [List.append_assoc, List.singleton_append, pieces_append (h line List.mem_cons_self),
        hlater]
      rfl

/-- Only what follows the last other character can be dropped. -/
theorem dropReturn_append_cons (front : List Char) {c : Char} (hc : c ≠ '\r')
    (rest : List Char) : dropReturn (front ++ c :: rest) = front ++ c :: dropReturn rest := by
  cases rest with
  | nil =>
      have hlast : (front ++ [c]).getLast? ≠ some '\r' := by
        rw [List.getLast?_concat]
        exact fun heq => hc (Option.some.inj heq)
      rw [dropReturn, if_neg hlast]
      rfl
  | cons d later =>
      have hlast : (front ++ c :: d :: later).getLast? = (d :: later).getLast? := by
        rw [List.append_cons, List.getLast?_append, List.getLast?_cons, Option.some_or]
      rw [dropReturn, dropReturn, hlast]
      by_cases hreturn : (d :: later).getLast? = some '\r'
      · rw [if_pos hreturn, if_pos hreturn, List.append_cons,
          List.dropLast_append_of_ne_nil (List.cons_ne_nil _ _), ← List.append_cons]
      · rw [if_neg hreturn, if_neg hreturn]

theorem dropReturn_of_not_mem {line : List Char} (h : '\r' ∉ line) : dropReturn line = line := by
  rw [dropReturn, if_neg fun hlast => h (List.mem_of_getLast? hlast)]

/-- **Lines that are ended are read back**, less a carriage return at the end of each. -/
theorem lines_ended {rows : List (List Char)} (h : ∀ line ∈ rows, '\n' ∉ line) :
    lines (ended rows) = rows.map dropReturn := by
  rw [lines, pieces_ended h]
  induction rows with
  | nil => rfl
  | cons line later ih =>
      have hlater := ih fun l hl => h l (List.mem_cons_of_mem _ hl)
      obtain ⟨next, rest, hnext⟩ : ∃ next rest, later ++ [[]] = next :: rest :=
        List.exists_cons_of_ne_nil (List.append_ne_nil_of_right_ne_nil _ (List.cons_ne_nil _ _))
      rw [List.cons_append, hnext, endLines, ← hnext, hlater, List.map_cons]
      exact List.cons_ne_nil _ _

theorem mem_of_mem_dropReturn {line : List Char} {c : Char} (h : c ∈ dropReturn line) :
    c ∈ line := by
  rw [dropReturn] at h
  by_cases hlast : line.getLast? = some '\r'
  · rw [if_pos hlast] at h
    exact List.dropLast_subset line h
  · rwa [if_neg hlast] at h

/-- A line holds no line feed. -/
theorem not_mem_of_mem_lines {text line : List Char} (h : line ∈ lines text) : '\n' ∉ line := by
  have hends : ∀ parts : List (List Char), (∀ part ∈ parts, '\n' ∉ part) →
      ∀ line ∈ endLines parts, '\n' ∉ line := by
    intro parts
    induction parts with
    | nil => exact fun _ line hline => nomatch hline
    | cons part later ih =>
        intro hparts line hline
        have hpart : '\n' ∉ part := hparts part List.mem_cons_self
        cases later with
        | nil =>
            rw [endLines] at hline
            by_cases hempty : part.isEmpty = true
            · rw [if_pos hempty] at hline
              exact nomatch hline
            · rw [if_neg hempty] at hline
              exact List.mem_singleton.1 hline ▸ hpart
        | cons next rest =>
            rcases List.mem_cons.1 hline with rfl | hline
            · exact fun hmem => hpart (mem_of_mem_dropReturn hmem)
            · exact ih (fun p hp => hparts p (List.mem_cons_of_mem _ hp)) line hline
  exact hends _ (fun _ hpart => not_mem_of_mem_pieces hpart) line h

/-- Lines with their numbers, counted from a given one. -/
def numberFrom (first : Nat) (rows : List (List Char)) : List (Nat × List Char) :=
  (List.range' first rows.length).zip rows

theorem numberFrom_cons (first : Nat) (line : List Char) (later : List (List Char)) :
    numberFrom first (line :: later) = (first, line) :: numberFrom (first + 1) later := rfl

theorem map_snd_numberFrom (first : Nat) (rows : List (List Char)) :
    (numberFrom first rows).map Prod.snd = rows :=
  List.map_snd_zip (Nat.le_of_eq List.length_range'.symm)

theorem numberFrom_append (first : Nat) (rows later : List (List Char)) :
    numberFrom first (rows ++ later)
      = numberFrom first rows ++ numberFrom (first + rows.length) later := by
  induction rows generalizing first with
  | nil => rfl
  | cons line rest ih =>
      rw [List.cons_append, numberFrom_cons, numberFrom_cons, ih, List.length_cons,
        List.cons_append, Nat.add_assoc, Nat.add_comm 1]

theorem not_mem_of_mem_numberedLines {text : List Char} {entry : Nat × List Char}
    (h : entry ∈ numberedLines text) : '\n' ∉ entry.2 :=
  not_mem_of_mem_lines (List.of_mem_zip h).2

theorem numberedLines_ended {rows : List (List Char)} (h : ∀ line ∈ rows, '\n' ∉ line) :
    numberedLines (ended rows) = numberFrom 1 (rows.map dropReturn) := by
  rw [numberedLines, lines_ended h]
  rfl

/-- Lines that leave the line ends alone are read back as they are. -/
theorem numberedLines_ended_of_clean {rows : List (List Char)}
    (h : ∀ line ∈ rows, '\n' ∉ line ∧ dropReturn line = line) :
    numberedLines (ended rows) = numberFrom 1 rows := by
  rw [numberedLines_ended fun line hline => (h line hline).1,
    List.map_congr_left fun line hline => (h line hline).2, List.map_id']

end Nomenclator.Text
