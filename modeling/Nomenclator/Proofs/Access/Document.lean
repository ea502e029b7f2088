import Nomenclator.Access.Document
import Nomenclator.Proofs.Access.Overrides
import Nomenclator.Proofs.Outcome
import Nomenclator.Proofs.Text.Words

/-! # Access documents — which overrides are read back

    A document is rows of words.  Writing puts every part of an override into a
    cell of its row, and reading takes the words of the row; the two agree as long
    as every part is a word.

    * **Rows** — the text that is written, and the words that are found in it;
    * **Entries** — overrides that are added one by one, in whatever order, come
      together to the set they were taken from (`foldlM_add_entries`);
    * **Words** — whatever is read, each part of it was a word of a line, so nothing
      else than words can come back (`legible_of_parse`). -/

namespace Nomenclator.Access

/-- The text is one word of a line: it is not empty, holds no blank and starts no comment. -/
def IsWord (text : String) : Prop :=
  text ≠ "" ∧ ∀ c ∈ text.toList, Text.isBlank c = false ∧ c ≠ '#'

/-- The namespace and all parts of the subjects are words. -/
structure Overrides.Legible (o : Overrides) : Prop where
  label : IsWord o.label
  classes : ∀ name ∈ o.classes.keys, IsWord name
  members : ∀ kind, ∀ m ∈ (o.members kind).keys,
    IsWord m.owner ∧ IsWord m.name ∧ IsWord m.descriptor

/-- The words for a subject: its kind and its parts. -/
def Subject.words : Subject → List String
  | .ofClass name => ["class", name]
  | .ofMember kind m => [kind.noun, m.owner, m.name, m.descriptor]

/-- The words of an override. -/
def entryWords (entry : Subject × Visibility) : List String := entry.2.word :: entry.1.words

/-- The words of the header of a document. -/
def headerLine (label : String) : List String := ["accessWidener", formatVersion, label]

/-- A word without blanks and comments, if a look at its characters finds none. -/
theorem isWord_of_all {text : String} (hne : text ≠ "")
    (h : (text.toList.all fun c => !Text.isBlank c && c != '#') = true) : IsWord text := by
  refine ⟨hne, fun c hc => ?_⟩
  have hlook := List.all_eq_true.1 h c hc
  simpa using hlook

theorem isWord_word (visibility : Visibility) : IsWord visibility.word := by
  cases visibility <;> exact isWord_of_all (by decide) (by decide)

theorem isWord_noun (kind : MemberKind) : IsWord kind.noun := by
  cases kind <;> exact isWord_of_all (by decide) (by decide)

/-- The subjects of legible overrides are words. -/
theorem Overrides.Legible.isWord {o : Overrides} (h : o.Legible) {subject : Subject}
    {visibility : Visibility} (hget : o.get? subject = some visibility) :
    ∀ word ∈ subject.words, IsWord word := by
  cases subject with
  | ofClass name =>
      have hname : IsWord name :=
        h.classes name (SortedMap.mem_keys_iff.2 (Option.isSome_iff_exists.2 ⟨visibility, hget⟩))
      simp only [Subject.words, List.forall_mem_cons, List.not_mem_nil, false_implies,
        implies_true, and_true]
      exact ⟨isWord_of_all (by decide) (by decide), hname⟩
  | ofMember kind m =>
      have hparts := h.members kind m
        (SortedMap.mem_keys_iff.2 (Option.isSome_iff_exists.2 ⟨visibility, hget⟩))
      simp only [Subject.words, List.forall_mem_cons, List.not_mem_nil, false_implies,
        implies_true, and_true]
      exact ⟨isWord_noun kind, hparts⟩

-- ── Rows ─────────────────────────────────────────────────────────────────────

/-- The words of a row are the words that it was made of. -/
theorem lineWords_row {words : List String} (h : ∀ word ∈ words, IsWord word) :
    lineWords (Text.row words) = words := by
  have hcomment : '#' ∉ Text.row words :=
    Text.not_mem_row (by decide) fun word hword hmem => ((h word hword).2 _ hmem).2 rfl
  have hall : (Text.row words).takeWhile (· ≠ '#') = Text.row words := by
    rw [List.takeWhile_eq_self_iff]
    intro c hc
    exact decide_eq_true fun heq => hcomment (heq ▸ hc)
  have hwords : Text.words (Text.row words) = words.map String.toList := by
    refine Text.words_joinWith (by decide) (fun part hpart => ?_) fun part hpart c hc => ?_
    · obtain ⟨word, hword, rfl⟩ := List.mem_map.1 hpart
      exact fun hnil => (h word hword).1 (String.toList_eq_nil_iff.1 hnil)
    · obtain ⟨word, hword, rfl⟩ := List.mem_map.1 hpart
      exact ((h word hword).2 c hc).1
  rw [lineWords, hall, hwords, List.map_map]
  exact List.map_id'' (fun _ => String.ofList_toList) words

/-- A word of a line is a word. -/
theorem isWord_of_mem_lineWords {line : List Char} {word : String} (h : word ∈ lineWords line) :
    IsWord word := by
  obtain ⟨chars, hchars, rfl⟩ := List.mem_map.1 h
  obtain ⟨hne, hall⟩ := Text.of_mem_words hchars
  refine ⟨fun hnil => hne ?_, fun c hc => ?_⟩
  · rw [← String.toList_ofList (l := chars), hnil]
    rfl
  · rw [String.toList_ofList] at hc
    have hbefore := List.mem_takeWhile_imp (hall c hc).1
    exact ⟨(hall c hc).2, of_decide_eq_true hbefore⟩

/-- A row of words stands on one line. -/
theorem row_fits {words : List String} (h : ∀ word ∈ words, IsWord word) :
    '\n' ∉ Text.row words ∧ Text.dropReturn (Text.row words) = Text.row words := by
  have hblank : ∀ c, Text.isBlank c = true → c ≠ '\t' → c ∉ Text.row words := by
    intro c hc htab
    refine Text.not_mem_row htab fun word hword hmem => ?_
    rw [((h word hword).2 c hmem).1] at hc
    exact nomatch hc
  exact ⟨hblank '\n' (by decide) (by decide),
    Text.dropReturn_of_not_mem (hblank '\r' (by decide) (by decide))⟩

theorem renderEntry_eq (entry : Subject × Visibility) :
    (renderEntry entry).toList = Text.row (entryWords entry) ++ ['\n'] := by
  obtain ⟨subject, visibility⟩ := entry
  cases subject with
  | ofClass name =>
      simp [renderEntry, entryWords, Subject.words, Text.row, Text.joinWith, toString]
  | ofMember kind m =>
      simp [renderEntry, entryWords, Subject.words, Text.row, Text.joinWith, toString]

/-- A document is written row by row. -/
theorem render_eq (o : Overrides) :
    (render o).toList
      = Text.ended ((headerLine o.label :: o.entries.map entryWords).map Text.row) := by
  have hentries : ∀ entries : List (Subject × Visibility),
      (String.join (entries.map renderEntry)).toList
        = Text.ended ((entries.map entryWords).map Text.row) := by
    intro entries
    rw [String.toList_join, Text.ended, List.map_map, List.flatMap_map, List.flatMap_map]
    exact List.flatMap_congr fun entry _ => renderEntry_eq entry
  rw [render, String.toList_append, hentries]
  simp [headerWords, headerLine, Text.row, Text.joinWith, Text.ended, toString]

-- ── Entries ──────────────────────────────────────────────────────────────────

theorem ofWord?_word (visibility : Visibility) :
    Visibility.ofWord? visibility.word = some visibility := by
  cases visibility <;> decide

theorem readSubject_words (line count : Nat) (subject : Subject) :
    readSubject line count subject.words = .ok subject := by
  cases subject with
  | ofClass name => rfl
  | ofMember kind m => cases kind <;> rfl

/-- The words that a subject is read off are the words for it. -/
theorem eq_words_of_readSubject {line count : Nat} {words : List String} {subject : Subject}
    (h : readSubject line count words = .ok subject) : words = subject.words := by
  rw [readSubject.eq_def] at h
  split at h
  · cases h
    rfl
  · cases h
    rfl
  · cases h
    rfl
  · next word rest _ _ _ =>
    by_cases hword : word = "class" ∨ word = "method" ∨ word = "field"
    · rw [if_pos hword] at h
      exact nomatch h
    · rw [if_neg hword] at h
      exact nomatch h
  · exact nomatch h

/-- The row of an override adds it. -/
theorem readLine_entry (o : Overrides) (line : Nat) {entry : Subject × Visibility}
    (h : ∀ word ∈ entry.1.words, IsWord word) :
    readLine o (line, Text.row (entryWords entry)) = o.add entry.1 entry.2 := by
  obtain ⟨subject, visibility⟩ := entry
  have hwords : ∀ word ∈ entryWords (subject, visibility), IsWord word :=
    List.forall_mem_cons.2 ⟨isWord_word visibility, h⟩
  rw [readLine]
  dsimp only
  rw [lineWords_row hwords, entryWords, if_neg (fun hnil => nomatch hnil), readEntry]
  dsimp only [List.headD_cons]
  rw [ofWord?_word]
  dsimp only
  rw [List.drop_succ_cons, List.drop_zero, readSubject_words]
  rfl

/-- A line after the header changes nothing, or adds an override whose parts are words. -/
theorem readLine_eq_ok {o o' : Overrides} {entry : Nat × List Char}
    (h : readLine o entry = .ok o') :
    o' = o ∨ ∃ subject visibility, (∀ word ∈ subject.words, IsWord word)
      ∧ o.add subject visibility = .ok o' := by
  rw [readLine] at h
  dsimp only at h
  by_cases hempty : (lineWords entry.2).isEmpty = true
  · rw [if_pos hempty] at h
    exact .inl (Except.ok.inj h).symm
  rw [if_neg hempty] at h
  obtain ⟨⟨subject, visibility⟩, hentry, hadd⟩ := Outcome.bind_eq_ok.1 h
  refine .inr ⟨subject, visibility, fun word hword => ?_, hadd⟩
  rw [readEntry] at hentry
  split at hentry
  · exact nomatch hentry
  · obtain ⟨read, hread, heq⟩ := Outcome.map_eq_ok.1 hentry
    cases heq
    rw [← eq_words_of_readSubject hread] at hword
    exact isWord_of_mem_lineWords (List.mem_of_mem_drop hword)

-- ── Reading back ─────────────────────────────────────────────────────────────

/-- Overrides that are legible are read back. -/
theorem parse_render {o : Overrides} (h : o.Legible) : parse (render o) = .ok o := by
  have hheader : ∀ word ∈ headerLine o.label, IsWord word := by
    simp only [headerLine, List.forall_mem_cons, List.not_mem_nil, false_implies, implies_true,
      and_true]
    exact ⟨isWord_of_all (by decide) (by decide), isWord_of_all (by decide) (by decide), h.label⟩
  have hentries : ∀ entry ∈ o.entries, ∀ word ∈ entry.1.words, IsWord word :=
    fun entry hentry => h.isWord (Overrides.mem_entries_iff.1 hentry)
  have hlines : Text.numberedLines (render o).toList
      = Text.numberFrom 1 ((headerLine o.label :: o.entries.map entryWords).map Text.row) := by
    rw [render_eq]
    refine Text.numberedLines_ended_of_clean fun line hline => ?_
    obtain ⟨words, hwords, rfl⟩ := List.mem_map.1 hline
    rcases List.mem_cons.1 hwords with rfl | hwords
    · exact row_fits hheader
    · obtain ⟨entry, hentry, rfl⟩ := List.mem_map.1 hwords
      exact row_fits (List.forall_mem_cons.2 ⟨isWord_word entry.2, hentries entry hentry⟩)
  -- each row after the header is one addition
  have hrows : ∀ (entries : List (Subject × Visibility)) (line : Nat) (start : Overrides),
      (∀ entry ∈ entries, ∀ word ∈ entry.1.words, IsWord word) →
      (Text.numberFrom line ((entries.map entryWords).map Text.row)).foldlM readLine start
        = entries.foldlM (fun o entry => o.add entry.1 entry.2) start := by
    intro entries
    induction entries with
    | nil => exact fun _ _ _ => rfl
    | cons entry later ih =>
        intro line start hwords
        rw [List.map_cons, List.map_cons, Text.numberFrom_cons, List.foldlM_cons,
          List.foldlM_cons, readLine_entry start line (hwords entry List.mem_cons_self)]
        refine bind_congr fun next => ?_
        exact ih (line + 1) next fun e he => hwords e (List.mem_cons_of_mem _ he)
  rw [parse, hlines, List.map_cons, Text.numberFrom_cons, readLines, lineWords_row hheader, if_neg (fun hnil => nomatch hnil)]
  show (Text.numberFrom 2 _).foldlM readLine { label := o.label } = _
  rw [hrows o.entries 2 _ hentries, Overrides.foldlM_add_entries]

/-- All subjects are words. -/
theorem Overrides.legible_of_subjects {o : Overrides} (hlabel : IsWord o.label)
    (h : ∀ subject visibility, o.get? subject = some visibility →
      ∀ word ∈ subject.words, IsWord word) : o.Legible := by
  refine ⟨hlabel, fun name hname => ?_, fun kind m hm => ?_⟩
  · obtain ⟨visibility, hget⟩ := Option.isSome_iff_exists.1 (SortedMap.mem_keys_iff.1 hname)
    exact h (.ofClass name) visibility hget name (by simp [Subject.words])
  · obtain ⟨visibility, hget⟩ := Option.isSome_iff_exists.1 (SortedMap.mem_keys_iff.1 hm)
    have hwords := h (.ofMember kind m) visibility hget
    exact ⟨hwords _ (by simp [Subject.words]), hwords _ (by simp [Subject.words]),
      hwords _ (by simp [Subject.words])⟩

/-- The namespace in a header is a word. -/
theorem isWord_of_readHeader {line : Nat} {text : List Char} {o : Overrides}
    (h : readHeader line (lineWords text) = .ok o) :
    IsWord o.label ∧ ∀ subject, o.get? subject = none := by
  rw [readHeader.eq_def] at h
  split at h
  · next word version label hwords =>
    have hmem : label ∈ lineWords text := by
      rw [hwords]
      simp
    have hlabel : IsWord label := isWord_of_mem_lineWords hmem
    by_cases hword : word ∉ headerWords
    · rw [if_pos hword] at h
      exact nomatch h
    rw [if_neg hword] at h
    by_cases hversion : version ≠ formatVersion
    · rw [if_pos hversion] at h
      exact nomatch h
    rw [if_neg hversion] at h
    cases h
    refine ⟨hlabel, fun subject => ?_⟩
    rcases subject with name | ⟨kind, m⟩
    · rfl
    · cases kind <;> rfl
  · exact nomatch h

/-- Lines after the header leave words for subjects. -/
theorem isWord_of_foldlM {rows : List (Nat × List Char)} {start o : Overrides}
    (hstart : ∀ subject visibility, start.get? subject = some visibility →
      ∀ word ∈ subject.words, IsWord word)
    (h : rows.foldlM readLine start = .ok o) :
    o.label = start.label ∧ ∀ subject visibility, o.get? subject = some visibility →
      ∀ word ∈ subject.words, IsWord word := by
  refine Outcome.foldlM_induction (fun _ (s : Overrides) => s.label = start.label
    ∧ ∀ subject visibility, s.get? subject = some visibility → ∀ word ∈ subject.words, IsWord word)
    (fun entry later s s' hs hstep => ?_) ⟨rfl, hstart⟩ h
  rcases readLine_eq_ok hstep with rfl | ⟨subject, visibility, hwords, hadd⟩
  · exact hs
  · obtain ⟨hlabel, hget⟩ := Overrides.add_eq_ok hadd
    refine ⟨hlabel.trans hs.1, fun other level hother => ?_⟩
    rw [hget other] at hother
    by_cases heq : other = subject
    · exact heq ▸ hwords
    · rw [if_neg heq] at hother
      exact hs.2 other level hother

/-- **Whatever is read is legible.** -/
theorem legible_of_parse {text : String} {o : Overrides} (h : parse text = .ok o) :
    o.Legible := by
  have hread : ∀ rows : List (Nat × List Char), readLines rows = .ok o → o.Legible := by
    intro rows
    induction rows with
    | nil => exact fun h => nomatch h
    | cons row later ih =>
        obtain ⟨line, chars⟩ := row
        intro h
        rw [readLines] at h
        by_cases hempty : (lineWords chars).isEmpty = true
        · rw [if_pos hempty] at h
          exact ih h
        · rw [if_neg hempty] at h
          obtain ⟨start, hstart, h⟩ := Outcome.bind_eq_ok.1 h
          obtain ⟨hlabel, hnone⟩ := isWord_of_readHeader hstart
          have hnew : ∀ subject visibility, start.get? subject = some visibility →
              ∀ word ∈ subject.words, IsWord word := by
            intro subject visibility hget
            rw [hnone subject] at hget
            exact nomatch hget
          obtain ⟨hsame, hwords⟩ := isWord_of_foldlM hnew h
          exact Overrides.legible_of_subjects (hsame ▸ hlabel) hwords
  exact hread _ h

/-- **Overrides are read back from their document exactly when they are legible**: the
    namespace and every part of every subject is a word. In particular, what was read once can
    be written and read again. -/
theorem parse_render_iff_legible (o : Overrides) :
    (parse (render o) = .ok o ↔ o.Legible)
      ∧ ∀ text, parse text = .ok o → parse (render o) = .ok o :=
  ⟨⟨legible_of_parse, parse_render⟩, fun _ h => parse_render (legible_of_parse h)⟩

/-- One method that is visible in its package. -/
def oneMethod : Overrides :=
  { label := "named"
    methods := .ofList [({ owner := "a", name := "b", descriptor := "()V" }, .toPackage)] }

/-- A document with comments, other words and a repeated line. -/
def looseText : String :=
  "\u3000# a\naccessEscalator v1 named#\n"
    ++ "PACKAGE\tmethod a b\x0c()V\n\ndefault method a b ()V\r\n"

/-- What is read off such a document is written in another way and read again. -/
theorem parse_render_iff_legible_loose :
    parse looseText = .ok oneMethod ∧ parse (render oneMethod) = .ok oneMethod := by
  have hread : parse looseText = .ok oneMethod := by decide +kernel
  exact ⟨hread, (parse_render_iff_legible oneMethod).2 _ hread⟩

end Nomenclator.Access
