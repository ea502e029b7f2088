import Nomenclator.Proofs.Text.Lines
import Nomenclator.Text.Blank

/-! # Words — rows of words are read back

    Words are the pieces of a text between blanks, without the empty ones.  A row
    whose cells hold no blank has exactly its cells for words, and no text has other
    words than such cells.  How many blanks stand between two words, in front of the
    first or after the last cannot be seen (`words_around_blanks`). -/

namespace Nomenclator.Text

/-- A word is not empty and holds characters of its text that are not blank. -/
theorem of_mem_words {text word : List Char} (h : word ∈ words text) :
    word ≠ [] ∧ ∀ c ∈ word, c ∈ text ∧ isBlank c = false := by
  obtain ⟨hpiece, hne⟩ := List.mem_filter.1 h
  refine ⟨?_, fun c hc => mem_of_mem_piecesWhere hpiece hc⟩
  rintro rfl
  exact nomatch hne

/-- The words of a row are its cells, if these are words. -/
theorem words_joinWith {c : Char} (hc : isBlank c = true) {parts : List (List Char)}
    (hne : ∀ part ∈ parts, part ≠ []) (h : ∀ part ∈ parts, ∀ d ∈ part, isBlank d = false) :
    words (joinWith [c] parts) = parts := by
  cases parts with
  | nil => rfl
  | cons first later =>
      rw [words, piecesWhere_joinWith isBlank hc (List.cons_ne_nil _ _) h, List.filter_eq_self]
      intro part hpart
      rw [Bool.not_eq_true', List.isEmpty_eq_false_iff]
      exact hne part hpart

-- ── Runs of blanks ───────────────────────────────────────────────────────────

/-- A blank parts the words before it from those after it. -/
theorem words_append_cons (front : List Char) {c : Char} (hc : isBlank c = true)
    (back : List Char) : words (front ++ c :: back) = words front ++ words back := by
  rw [words, piecesWhere_append_cons front hc, List.filter_append]
  rfl

theorem words_cons_of_blank {c : Char} (hc : isBlank c = true) (rest : List Char) :
    words (c :: rest) = words rest :=
  words_append_cons [] hc rest

theorem words_cons_ne_nil {c : Char} (hc : isBlank c = false) (rest : List Char) :
    words (c :: rest) ≠ [] := by
  obtain ⟨piece, later, hrest⟩ := List.exists_cons_of_ne_nil (piecesWhere_ne_nil isBlank rest)
  rw [words, piecesWhere, if_neg (Bool.eq_false_iff.1 hc), hrest]
  exact List.cons_ne_nil (c :: piece) _

/-- A text without words holds blanks only. -/
theorem words_eq_nil_iff {text : List Char} :
    words text = [] ↔ ∀ c ∈ text, isBlank c = true := by
  induction text with
  | nil => exact ⟨fun _ _ hc => (nomatch hc), fun _ => rfl⟩
  | cons c rest ih =>
      rw [List.forall_mem_cons]
      cases hc : isBlank c with
      | true => rw [words_cons_of_blank hc, ih, and_iff_right rfl]
      | false => exact iff_of_false (words_cons_ne_nil hc rest) fun h => nomatch h.1

variable {run : List Char}

theorem words_blanks_append (h : ∀ c ∈ run, isBlank c = true) (back : List Char) :
    words (run ++ back) = words back := by
  induction run with
  | nil => rfl
  | cons c rest ih =>
      obtain ⟨hc, hrest⟩ := List.forall_mem_cons.1 h
      rw [List.cons_append, words_cons_of_blank hc, ih hrest]

/-- **A run of blanks parts words** as one blank does. -/
theorem words_around_blanks (hne : run ≠ []) (h : ∀ c ∈ run, isBlank c = true)
    (front back : List Char) : words (front ++ (run ++ back)) = words front ++ words back := by
  obtain ⟨c, rest, rfl⟩ := List.exists_cons_of_ne_nil hne
  obtain ⟨hc, hrest⟩ := List.forall_mem_cons.1 h
  rw [List.cons_append, words_append_cons front hc, words_blanks_append hrest]

theorem words_append_blanks (h : ∀ c ∈ run, isBlank c = true) (front : List Char) :
    words (front ++ run) = words front := by
  cases run with
  | nil => rw [List.append_nil]
  | cons c rest =>
      obtain ⟨hc, hrest⟩ := List.forall_mem_cons.1 h
      rw [words_append_cons front hc, words_eq_nil_iff.2 hrest, List.append_nil]

end Nomenclator.Text
