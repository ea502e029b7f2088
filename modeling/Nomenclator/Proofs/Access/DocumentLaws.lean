import Mathlib.Logic.Relation
import Nomenclator.Proofs.Access.Document
import Nomenclator.Proofs.Access.Merge

/-! # Laws of access documents — rows in any order and layout

    Reading goes from line to line and stops at the first fault.  What it gives can be
    said without the walk, and without the lines:

    * **Rows** — a line counts by its words, and a line without words not at all
      (`rowsOf`);
    * **What rows ask for** — the first row names the namespace, every other row has to
      ask for an override, and the result requests these and nothing else (`Asks`);
      no order of the rows is left in this, nor a difference between rows that say the
      same in other words;
    * **Layout** — comments, lines without words and the amount of blank between two
      words leave the rows as they are (`rowsOf_edit`). -/

namespace Nomenclator.Access

open Overrides (IsUnion)

-- ── Lines and their words ────────────────────────────────────────────────────

/-- The line is blank, or blank up to its comment. -/
def IsIdle (line : List Char) : Prop := ∀ c ∈ line.takeWhile (· ≠ '#'), Text.isBlank c = true

instance (line : List Char) : Decidable (IsIdle line) :=
  decidable_of_iff _ List.all_eq_true

theorem lineWords_eq_nil_iff {line : List Char} : lineWords line = [] ↔ IsIdle line := by
  rw [lineWords, List.map_eq_nil_iff, Text.words_eq_nil_iff, IsIdle]

theorem isEmpty_lineWords_iff {line : List Char} :
    (lineWords line).isEmpty = true ↔ IsIdle line := by
  rw [List.isEmpty_iff, lineWords_eq_nil_iff]

section Blanks

variable {line blanks : List Char}

/-- Nothing after a comment sign counts. -/
theorem lineWords_append_of_mem (h : '#' ∈ line) (back : List Char) :
    lineWords (line ++ back) = lineWords line := by
  have hstops : (line.takeWhile (· ≠ '#')).length ≠ line.length := by
    intro hlength
    have hall := (List.takeWhile_prefix _).eq_of_length hlength
    exact absurd (List.takeWhile_eq_self_iff.1 hall '#' h) (by decide)
  rw [lineWords, List.takeWhile_append, if_neg hstops]
  rfl

theorem takeWhile_append_of_not_mem (h : '#' ∉ line) (back : List Char) :
    (line ++ back).takeWhile (· ≠ '#') = line ++ back.takeWhile (· ≠ '#') :=
  List.takeWhile_append_of_pos fun _ hc => decide_eq_true fun heq => h (heq ▸ hc)

theorem lineWords_append_of_not_mem (h : '#' ∉ line) (back : List Char) :
    lineWords (line ++ back)
      = (Text.words (line ++ back.takeWhile (· ≠ '#'))).map String.ofList := by
  rw [lineWords, takeWhile_append_of_not_mem h]

theorem not_mem_of_blanks (h : ∀ c ∈ blanks, Text.isBlank c = true) : '#' ∉ blanks :=
  fun hmem => absurd (h '#' hmem) (by decide)

/-- What follows the last word of a line does not count: blanks, and perhaps a comment. -/
theorem lineWords_ending (h : ∀ c ∈ blanks, Text.isBlank c = true) {rest : List Char}
    (hrest : rest.takeWhile (· ≠ '#') = []) :
    lineWords (line ++ (blanks ++ rest)) = lineWords line := by
  by_cases hline : '#' ∈ line
  · rw [lineWords_append_of_mem hline]
  · have hall := lineWords_append_of_not_mem hline []
    rw [List.append_nil, List.takeWhile_nil, List.append_nil] at hall
    rw [hall, lineWords_append_of_not_mem hline,
      takeWhile_append_of_not_mem (not_mem_of_blanks h), hrest, List.append_nil,
      Text.words_append_blanks h]

/-- The amount of blank between two characters does not count. -/
theorem lineWords_spacing {blanks' : List Char} (hne : blanks ≠ []) (hne' : blanks' ≠ [])
    (h : ∀ c ∈ blanks, Text.isBlank c = true) (h' : ∀ c ∈ blanks', Text.isBlank c = true)
    (back : List Char) :
    lineWords (line ++ (blanks ++ back)) = lineWords (line ++ (blanks' ++ back)) := by
  by_cases hline : '#' ∈ line
  · rw [lineWords_append_of_mem hline, lineWords_append_of_mem hline]
  · rw [lineWords_append_of_not_mem hline, lineWords_append_of_not_mem hline,
      takeWhile_append_of_not_mem (not_mem_of_blanks h),
      takeWhile_append_of_not_mem (not_mem_of_blanks h'),
      Text.words_around_blanks hne h, Text.words_around_blanks hne' h']

end Blanks

/-- A carriage return in front of the line feed is blank like others. -/
theorem lineWords_dropReturn (line : List Char) :
    lineWords (Text.dropReturn line) = lineWords line := by
  rw [Text.dropReturn]
  split
  · next hlast =>
    have hreturn : ∀ c ∈ ['\r'], Text.isBlank c = true := List.forall_mem_singleton.2 rfl
    rw [← lineWords_ending hreturn List.takeWhile_nil, List.append_nil,
      List.dropLast_append_getLast? _ hlast]
  · rfl

-- ── Rows ─────────────────────────────────────────────────────────────────────

/-- The rows of some lines: their words, without the lines that hold none. -/
def rowsOf (lines : List (List Char)) : List (List String) :=
  (lines.map lineWords).filter fun words => !words.isEmpty

theorem rowsOf_append (before after : List (List Char)) :
    rowsOf (before ++ after) = rowsOf before ++ rowsOf after := by
  rw [rowsOf, List.map_append, List.filter_append]
  rfl

theorem rowsOf_cons_of_idle {line : List Char} (h : IsIdle line) (later : List (List Char)) :
    rowsOf (line :: later) = rowsOf later := by
  rw [rowsOf, List.map_cons, lineWords_eq_nil_iff.2 h]
  rfl

theorem rowsOf_cons_of_words {line : List Char} (h : ¬ IsIdle line) (later : List (List Char)) :
    rowsOf (line :: later) = lineWords line :: rowsOf later := by
  rw [rowsOf, List.map_cons, List.filter_cons_of_pos]
  · rfl
  · rw [Bool.not_eq_true', List.isEmpty_eq_false_iff]
    exact mt lineWords_eq_nil_iff.1 h

theorem rowsOf_perm {lines lines' : List (List Char)} (h : lines.Perm lines') :
    (rowsOf lines).Perm (rowsOf lines') :=
  (h.map _).filter _

/-- The text of some lines, each ended by a line feed. -/
def document (lines : List (List Char)) : String := String.ofList (Text.ended lines)

/-- The rows of a document are those of the lines that it was made of. -/
theorem rowsOf_document {lines : List (List Char)} (h : ∀ line ∈ lines, '\n' ∉ line) :
    rowsOf (Text.lines (document lines).toList) = rowsOf lines := by
  rw [document, String.toList_ofList, Text.lines_ended h, rowsOf, List.map_map]
  exact congrArg _ (List.map_congr_left fun line _ => lineWords_dropReturn line)

-- ── What rows ask for ────────────────────────────────────────────────────────

/-- The overrides that a header starts, if the row is one. -/
def start? (row : List String) : Option Overrides := (readHeader 1 row).toOption

/-- The override that a row asks for, if it does. -/
def asked? (row : List String) : Option (Subject × Visibility) := (readEntry 1 row).toOption

/-- The number of its line does not matter to what a row says, but to how a fault is reported. -/
theorem readHeader_eq_ok_iff {line : Nat} {row : List String} {o : Overrides} :
    readHeader line row = .ok o ↔ start? row = some o := by
  have hline : (readHeader line row).toOption = start? row := by
    rw [start?, readHeader.eq_def, readHeader.eq_def]
    split
    · split
      · rfl
      · split <;> rfl
    · rfl
  rw [← hline, Outcome.toOption_eq_some]

theorem toOption_readSubject (line line' count : Nat) (row : List String) :
    (readSubject line count row).toOption = (readSubject line' count row).toOption := by
  rw [readSubject.eq_def, readSubject.eq_def]
  split
  · rfl
  · rfl
  · rfl
  · split <;> rfl
  · rfl

theorem readEntry_eq_ok_iff {line : Nat} {row : List String} {entry : Subject × Visibility} :
    readEntry line row = .ok entry ↔ asked? row = some entry := by
  have hline : (readEntry line row).toOption = asked? row := by
    have hsubject := toOption_readSubject line 1 row.length (row.drop 1)
    simp only [asked?, readEntry]
    cases Visibility.ofWord? (row.headD "") with
    | none => rfl
    | some visibility => simp only [Outcome.toOption_map, hsubject]
  rw [← hline, Outcome.toOption_eq_some]

/-- What the rows of a document ask for: the first one is a header, and every other one asks for
    an override. The overrides are gained, whatever their order. -/
def Asks : List (List String) → Overrides → Prop
  | [], _ => False
  | header :: rows, out => ∃ start, start? header = some start
      ∧ (∀ row ∈ rows, (asked? row).isSome) ∧ start.Gains (rows.filterMap asked?) out

section Reading

variable {numbered : List (Nat × List Char)} {start out : Overrides}

/-- A line with words adds the override that it asks for. -/
theorem readLine_of_words {text : List Char} (h : ¬ IsIdle text) (line : Nat) :
    readLine start (line, text)
      = readEntry line (lineWords text) >>= fun entry => start.add entry.1 entry.2 := by
  rw [readLine]
  exact if_neg (mt isEmpty_lineWords_iff.1 h)

theorem readLine_of_idle {text : List Char} (h : IsIdle text) (line : Nat) :
    readLine start (line, text) = .ok start := by
  rw [readLine]
  exact if_pos (isEmpty_lineWords_iff.2 h)

/-- The lines after the header are read when every row asks for an override, and these can be
    gained. -/
theorem foldlM_readLine_eq_ok_iff :
    numbered.foldlM readLine start = .ok out
      ↔ (∀ row ∈ rowsOf (numbered.map Prod.snd), (asked? row).isSome)
        ∧ start.Gains ((rowsOf (numbered.map Prod.snd)).filterMap asked?) out := by
  induction numbered generalizing start with
  | nil =>
      refine Iff.trans ?_ (and_iff_right fun _ hrow => nomatch hrow).symm
      exact @Overrides.foldlM_add_eq_ok_iff start out []
  | cons head later ih =>
      obtain ⟨line, text⟩ := head
      rw [List.foldlM_cons, List.map_cons]
      by_cases hidle : IsIdle text
      · rw [readLine_of_idle hidle, rowsOf_cons_of_idle hidle]
        exact ih
      · rw [readLine_of_words hidle, rowsOf_cons_of_words hidle, List.forall_mem_cons]
        cases hentry : asked? (lineWords text) with
        | none =>
            constructor
            · intro h
              obtain ⟨next, hnext, -⟩ := Outcome.bind_eq_ok.1 h
              obtain ⟨entry, hread, -⟩ := Outcome.bind_eq_ok.1 hnext
              exact nomatch hentry.symm.trans (readEntry_eq_ok_iff.1 hread)
            · intro h
              exact nomatch h.1.1
        | some entry =>
            rw [List.filterMap_cons_some hentry, readEntry_eq_ok_iff.2 hentry,
              Outcome.bind_eq_ok, and_iff_right (show (some entry).isSome = true from rfl)]
            constructor
            · rintro ⟨next, hnext, h⟩
              obtain ⟨hrows, hgains⟩ := ih.1 h
              exact ⟨hrows, (Overrides.add_eq_ok_iff.1 hnext).cons_iff.2 hgains⟩
            · rintro ⟨hrows, hgains⟩
              obtain ⟨next, hnext⟩ := (Overrides.exists_add_iff start entry.1 entry.2).2
                (hgains.admits List.mem_cons_self)
              exact ⟨next, hnext, ih.2 ⟨hrows, (Overrides.add_eq_ok_iff.1 hnext).cons_iff.1 hgains⟩⟩

theorem readLines_eq_ok_iff :
    readLines numbered = .ok out ↔ Asks (rowsOf (numbered.map Prod.snd)) out := by
  induction numbered with
  | nil => exact ⟨fun h => (nomatch h), False.elim⟩
  | cons head later ih =>
      obtain ⟨line, text⟩ := head
      rw [readLines, List.map_cons]
      dsimp only
      by_cases hidle : IsIdle text
      · rw [if_pos (isEmpty_lineWords_iff.2 hidle), rowsOf_cons_of_idle hidle]
        exact ih
      · rw [if_neg (mt isEmpty_lineWords_iff.1 hidle), rowsOf_cons_of_words hidle,
          Outcome.bind_eq_ok, Asks]
        refine exists_congr fun start => ?_
        rw [readHeader_eq_ok_iff, foldlM_readLine_eq_ok_iff]

/-- **A document is read as what its rows ask for.** -/
theorem parse_eq_ok_iff {text : String} :
    parse text = .ok out ↔ Asks (rowsOf (Text.lines text.toList)) out := by
  have hnumbered : Text.numberedLines text.toList = Text.numberFrom 1 (Text.lines text.toList) :=
    rfl
  rw [parse, readLines_eq_ok_iff, hnumbered, Text.map_snd_numberFrom]

end Reading

section Order

variable {header : List String} {rows rows' : List (List String)} {out : Overrides}

/-- Rows under one header ask for the union of what their parts ask for. -/
theorem asks_append_iff :
    Asks (header :: (rows ++ rows')) out
      ↔ ∃ a b, Asks (header :: rows) a ∧ Asks (header :: rows') b ∧ IsUnion a b out := by
  simp only [Asks, List.filterMap_append, List.forall_mem_append, Overrides.gains_append_iff]
  constructor
  · rintro ⟨start, hstart, ⟨hrows, hrows'⟩, a, b, ha, hb, h⟩
    exact ⟨a, b, ⟨start, hstart, hrows, ha⟩, ⟨start, hstart, hrows', hb⟩, h⟩
  · rintro ⟨a, b, ⟨start, hstart, hrows, ha⟩, ⟨start', hstart', hrows', hb⟩, h⟩
    obtain rfl := Option.some.inj (hstart.symm.trans hstart')
    exact ⟨start, hstart, ⟨hrows, hrows'⟩, a, b, ha, hb, h⟩

/-- The order of the rows does not matter. -/
theorem asks_of_perm (hperm : rows.Perm rows') (h : Asks (header :: rows) out) :
    Asks (header :: rows') out := by
  obtain ⟨start, hstart, hrows, hgains⟩ := h
  exact ⟨start, hstart, fun row hrow => hrows row (hperm.mem_iff.2 hrow),
    hgains.perm (hperm.filterMap asked?)⟩

end Order

-- ── Layout ───────────────────────────────────────────────────────────────────

/-- A change inside a line: a comment at its end, with blanks before it, or another amount of
    blank where there is some. -/
inductive LineEdit : List Char → List Char → Prop where
  | comment (line note : List Char) {blanks : List Char}
      (h : ∀ c ∈ blanks, Text.isBlank c = true) :
      LineEdit line (line ++ (blanks ++ '#' :: note))
  | spacing (front back : List Char) {blanks blanks' : List Char} (hne : blanks ≠ [])
      (hne' : blanks' ≠ []) (h : ∀ c ∈ blanks, Text.isBlank c = true)
      (h' : ∀ c ∈ blanks', Text.isBlank c = true) :
      LineEdit (front ++ (blanks ++ back)) (front ++ (blanks' ++ back))

/-- A change of layout: inside a line, or one line more that is blank or only a comment. -/
inductive Edit : List (List Char) → List (List Char) → Prop where
  | line (before after : List (List Char)) {line line' : List Char} (h : LineEdit line line') :
      Edit (before ++ line :: after) (before ++ line' :: after)
  | insert (before after : List (List Char)) {line : List Char} (h : IsIdle line) :
      Edit (before ++ after) (before ++ line :: after)

theorem lineWords_edit {line line' : List Char} (h : LineEdit line line') :
    lineWords line = lineWords line' := by
  cases h with
  | comment _ note h => exact (lineWords_ending h (List.takeWhile_cons_of_neg (by decide))).symm
  | spacing front back hne hne' h h' => exact lineWords_spacing hne hne' h h' back

/-- **The layout leaves the rows as they are.** -/
theorem rowsOf_edit {lines lines' : List (List Char)} (h : Edit lines lines') :
    rowsOf lines = rowsOf lines' := by
  cases h with
  | line before after h =>
      rw [rowsOf, rowsOf, List.map_append, List.map_append, List.map_cons, List.map_cons,
        lineWords_edit h]
  | insert before after h => rw [rowsOf_append, rowsOf_append, rowsOf_cons_of_idle h]

theorem rowsOf_edits {lines lines' : List (List Char)} (h : Relation.EqvGen Edit lines lines') :
    rowsOf lines = rowsOf lines' := by
  induction h with
  | rel _ _ h => exact rowsOf_edit h
  | refl _ => rfl
  | symm _ _ _ ih => exact ih.symm
  | trans _ _ _ _ _ ih ih' => exact ih.trans ih'

-- ── The laws ─────────────────────────────────────────────────────────────────

/-- **Access documents compose by rows.** Under one header, the lines of two documents can be
    read together exactly if each document can be read and the two results can be merged, and
    then the merger is what is read. The lines after the header may stand in any order: both
    orders are read with one result, or neither is. And no change of layout, in any number and
    in either direction, changes whether a text is read, or what is read. -/
theorem parse_by_rows :
    (∀ header first second, (∀ line ∈ header :: (first ++ second), '\n' ∉ line) →
        ¬ IsIdle header → ∀ out,
          parse (document (header :: (first ++ second))) = .ok out
            ↔ ∃ a b, parse (document (header :: first)) = .ok a
                ∧ parse (document (header :: second)) = .ok b ∧ a.merge b = (.ok (), out))
      ∧ (∀ header lines lines', (∀ line ∈ header :: lines, '\n' ∉ line) → ¬ IsIdle header →
          lines.Perm lines' → ∀ out,
            parse (document (header :: lines)) = .ok out
              ↔ parse (document (header :: lines')) = .ok out)
      ∧ ∀ text text' : String,
          Relation.EqvGen Edit (Text.lines text.toList) (Text.lines text'.toList) → ∀ out,
            parse text = .ok out ↔ parse text' = .ok out := by
  have hdocument : ∀ {header lines}, (∀ line ∈ header :: lines, '\n' ∉ line) → ¬ IsIdle header →
      ∀ {out}, parse (document (header :: lines)) = .ok out
        ↔ Asks (lineWords header :: rowsOf lines) out := by
    intro header lines hfeed hheader out
    rw [parse_eq_ok_iff, rowsOf_document hfeed, rowsOf_cons_of_words hheader]
  refine ⟨fun header first second hfeed hheader out => ?_,
    fun header lines lines' hfeed hheader hperm out => ?_, fun text text' hedits out => ?_⟩
  · obtain ⟨hhead, hlines⟩ := List.forall_mem_cons.1 hfeed
    obtain ⟨hfirst, hsecond⟩ := List.forall_mem_append.1 hlines
    rw [hdocument hfeed hheader, rowsOf_append, asks_append_iff]
    simp only [hdocument (List.forall_mem_cons.2 ⟨hhead, hfirst⟩) hheader,
      hdocument (List.forall_mem_cons.2 ⟨hhead, hsecond⟩) hheader, Overrides.merge_eq_ok_iff]
  · have hfeed' : ∀ line ∈ header :: lines', '\n' ∉ line :=
      fun line hline => hfeed line ((hperm.cons header).mem_iff.2 hline)
    rw [hdocument hfeed hheader, hdocument hfeed' hheader]
    exact ⟨asks_of_perm (rowsOf_perm hperm), asks_of_perm (rowsOf_perm hperm).symm⟩
  · rw [parse_eq_ok_iff, parse_eq_ok_iff, rowsOf_edits hedits]

/-- Two documents that ask for the same in other words, read apart, together and in either order;
    and a document that a comment line, a comment and blanks do not change. -/
theorem parse_by_rows_other_words :
    ∃ (header : List Char) (first second : List (List Char)) (out alone : Overrides),
      (∀ line ∈ header :: (first ++ second), '\n' ∉ line) ∧ ¬ IsIdle header
        ∧ document (header :: first)
          = "accessWidener v1\tn\nPUBLIC class A # a\ndefault\tfield A x I\n"
        ∧ document (header :: second)
          = "accessWidener v1\tn\npackage field A x I\r\npublic class  A\n"
        ∧ parse (document (header :: first)) = .ok out
        ∧ parse (document (header :: second)) = .ok out
        ∧ parse (document (header :: (first ++ second))) = .ok out
        ∧ parse (document (header :: (second ++ first))) = .ok out
        ∧ parse "accessWidener v1\tn\npublic class A\n" = .ok alone
        ∧ parse "\u3000# a\naccessWidener \t v1\tn\npublic class A #b" = .ok alone := by
  let header : List Char := "accessWidener v1\tn".toList
  let first : List (List Char) := ["PUBLIC class A # a".toList, "default\tfield A x I".toList]
  let second : List (List Char) := ["package field A x I\r".toList, "public class  A".toList]
  let out : Overrides :=
    { label := "n"
      classes := .ofList [("A", .toAll)]
      fields := .ofList [(⟨"A", "x", "I"⟩, .toPackage)] }
  let alone : Overrides := { label := "n", classes := .ofList [("A", .toAll)] }
  let plain : String := "accessWidener v1\tn\npublic class A\n"
  let laid : String := "\u3000# a\naccessWidener \t v1\tn\npublic class A #b"
  let inserted : List Char := "\u3000# a".toList
  let spaced : List Char := "accessWidener \t v1\tn".toList
  let entry : List Char := "public class A".toList
  let noted : List Char := "public class A #b".toList
  have hfeed : ∀ line ∈ header :: (first ++ second), '\n' ∉ line := by decide +kernel
  have hheader : ¬ IsIdle header := by decide +kernel
  have hfirst : parse (document (header :: first)) = .ok out := by decide +kernel
  have hsecond : parse (document (header :: second)) = .ok out := by decide +kernel
  have hmerge : out.merge out = (.ok (), out) := by decide +kernel
  obtain ⟨hcompose, horder, hlayout⟩ := parse_by_rows
  have hboth := (hcompose header first second hfeed hheader out).2
    ⟨out, out, hfirst, hsecond, hmerge⟩
  have hswapped := (horder header _ (second ++ first) hfeed hheader List.perm_append_comm out).1
    hboth
  have halone : parse plain = .ok alone := by decide +kernel
  have hplain : Text.lines plain.toList = [header, entry] := by decide +kernel
  have hlaid : Text.lines laid.toList = [inserted, spaced, noted] := by decide +kernel
  have hblank : ∀ c ∈ [' '], Text.isBlank c = true := List.all_eq_true.1 rfl
  have hblanks : ∀ c ∈ [' ', '\t', ' '], Text.isBlank c = true := List.all_eq_true.1 rfl
  have hcomment : Edit [header, entry] [header, noted] :=
    .line [header] [] (.comment entry ['b'] hblank)
  have hspacing : Edit [header, noted] [spaced, noted] :=
    .line [] _ (.spacing "accessWidener".toList "v1\tn".toList (List.cons_ne_nil _ _)
      (List.cons_ne_nil _ _) hblank hblanks)
  have hinsert : Edit [spaced, noted] [inserted, spaced, noted] :=
    .insert [] _ (by decide +kernel)
  have hedits : Relation.EqvGen Edit (Text.lines plain.toList) (Text.lines laid.toList) := by
    rw [hplain, hlaid]
    exact .trans _ _ _ (.rel _ _ hcomment) (.trans _ _ _ (.rel _ _ hspacing) (.rel _ _ hinsert))
  exact ⟨header, first, second, out, alone, hfeed, hheader, by decide +kernel, by decide +kernel,
    hfirst, hsecond, hboth, hswapped, halone, (hlayout plain laid hedits alone).1 halone⟩

end Nomenclator.Access
