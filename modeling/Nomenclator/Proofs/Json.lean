import Nomenclator.Json
import Nomenclator.Proofs.Text.Decimal
import Nomenclator.Proofs.Text.Utf8

/-! # JSON — written strings are read back

    A written text is read octet by octet.  Outside ASCII every octet of a character
    is 0x80 or more, so none is taken for a quote, a backslash or a control character:
    each character of a string is read by itself, as the pieces that give its octets
    again, and the pieces together as the whole text. -/

namespace Nomenclator.Json

-- ── Octets ───────────────────────────────────────────────────────────────────

/-- The octets of a text, as the reader takes them. -/
def octets (text : List Char) : List Char :=
  (Text.encodeUtf8 text).map fun b => Char.ofNat b.toNat

theorem octets_cons (c : Char) (text : List Char) :
    octets (c :: text) = octets [c] ++ octets text := by
  simp [octets, Text.encodeUtf8]

theorem octets_append (text later : List Char) :
    octets (text ++ later) = octets text ++ octets later := by
  simp [octets, Text.encodeUtf8]

theorem toNat_octet (b : UInt8) : (Char.ofNat b.toNat).toNat = b.toNat := by
  have hb : b.toNat < 256 := b.toNat_lt
  have hvalid : b.toNat.isValidChar := .inl (by omega)
  rw [Char.ofNat, dif_pos hvalid]
  rfl

theorem encodeChar_ascii {c : Char} (h : c.toNat < 0x80) :
    String.utf8EncodeChar c = [UInt8.ofNat c.toNat] := by
  have hle : c.val.toNat ≤ 0x7F := by
    have : c.val.toNat < 0x80 := h
    omega
  rw [String.utf8EncodeChar, if_pos hle]
  rfl

theorem octets_ascii (text : List Char) (h : text.all (·.toNat < 0x80) = true) :
    octets text = text := by
  induction text with
  | nil => rfl
  | cons c later ih =>
      rw [List.all_cons, Bool.and_eq_true, decide_eq_true_eq] at h
      obtain ⟨hc, hlater⟩ := h
      rw [octets_cons, ih hlater]
      have hone : octets [c] = [c] := by
        simp only [octets, Text.encodeUtf8, List.flatMap_cons, List.flatMap_nil, List.append_nil,
          encodeChar_ascii hc, List.map_cons, List.map_nil, Text.toNat_ofNat_of_lt
          (Nat.lt_trans hc (by decide : 0x80 < 256)), Char.ofNat_toNat]
      rw [hone]
      rfl

/-- Outside ASCII no octet of a character is an ASCII one. -/
theorem le_of_mem_encodeChar {c : Char} (h : 0x80 ≤ c.toNat) {b : UInt8}
    (hb : b ∈ String.utf8EncodeChar c) : 0x80 ≤ b.toNat := by
  have hoctet : ∀ n, 0x80 ≤ n → n < 256 → 0x80 ≤ (UInt8.ofNat n).toNat := by
    intro n hlow hn
    rw [Text.toNat_ofNat_of_lt hn]
    exact hlow
  have hfirst : ¬ c.val.toNat ≤ 0x7F := by
    have : 0x80 ≤ c.val.toNat := h
    omega
  rw [String.utf8EncodeChar, if_neg hfirst] at hb
  generalize c.val.toNat = v at hb
  -- a character of two, three or four octets
  split at hb
  · simp only [List.mem_cons, List.not_mem_nil, or_false] at hb
    rcases hb with rfl | rfl <;> exact hoctet _ (by omega) (by omega)
  split at hb
  · simp only [List.mem_cons, List.not_mem_nil, or_false] at hb
    rcases hb with rfl | rfl | rfl <;> exact hoctet _ (by omega) (by omega)
  · simp only [List.mem_cons, List.not_mem_nil, or_false] at hb
    rcases hb with rfl | rfl | rfl | rfl <;> exact hoctet _ (by omega) (by omega)

-- ── Strings ──────────────────────────────────────────────────────────────────

/-- An octet that stands for itself in a string. -/
def Piece.Plain (c : Char) : Prop := c ≠ '"' ∧ c ≠ '\\' ∧ 0x20 ≤ c.toNat

theorem readPieces_plain {plain : List Char} (h : ∀ c ∈ plain, Piece.Plain c) (rest : List Char) :
    readPieces (plain ++ rest)
      = (readPieces rest).map fun (pieces, rest) => (plain.map .octet ++ pieces, rest) := by
  induction plain with
  | nil => simp
  | cons c later ih =>
      obtain ⟨hquote, hmark, hlow⟩ := h c List.mem_cons_self
      have hplain : ¬ (c = '\\' ∨ c.toNat < 0x20) := by
        rintro (heq | hlt)
        · exact hmark heq
        · omega
      rw [List.cons_append, readPieces, if_neg hplain,
        ih fun d hd => h d (List.mem_cons_of_mem _ hd)]
      · cases readPieces rest <;> rfl
      · exact hquote
      · exact fun _ _ _ _ _ heq _ => hmark heq
      · exact fun _ _ heq _ => hmark heq

theorem readPieces_short {mark c : Char} (h : shortEscape mark = some c) (rest : List Char) :
    readPieces ('\\' :: mark :: rest)
      = (readPieces rest).map fun (pieces, rest) => (.octet c :: pieces, rest) := by
  have hmark : mark ≠ 'u' := by
    rintro rfl
    cases h
  rw [readPieces, h]
  · cases readPieces rest <;> rfl
  · exact fun _ _ _ _ _ heq _ => hmark heq

theorem readPieces_unit {a b c d : Char} {unit : Nat} (h : hexNumber [a, b, c, d] = some unit)
    (rest : List Char) :
    readPieces ('\\' :: 'u' :: a :: b :: c :: d :: rest)
      = (readPieces rest).map fun (pieces, rest) => (.unit unit :: pieces, rest) := by
  rw [readPieces, h]
  cases readPieces rest <;> rfl

theorem octetsOf_octets (bytes : Bytes) (pieces : List Piece) :
    octetsOf (bytes.map (fun b => .octet (Char.ofNat b.toNat)) ++ pieces)
      = (octetsOf pieces).map (bytes ++ ·) := by
  induction bytes with
  | nil => simp
  | cons b later ih =>
      rw [List.map_cons, List.cons_append, octetsOf, ih, toNat_octet, UInt8.ofNat_toNat,
        Option.map_map]
      rfl

theorem octetsOf_ascii {c : Char} (h : c.toNat < 0x80) (pieces : List Piece) :
    octetsOf (.octet c :: pieces) = (octetsOf pieces).map (String.utf8EncodeChar c ++ ·) := by
  rw [octetsOf, encodeChar_ascii h]
  rfl

theorem octetsOf_unit {c : Char} (h : c.toNat < 0x80) (pieces : List Piece) :
    octetsOf (.unit c.toNat :: pieces) = (octetsOf pieces).map (String.utf8EncodeChar c ++ ·) := by
  rw [octetsOf.eq_def]
  dsimp only
  rw [if_neg (by omega), if_neg (by omega), Char.ofNat_toNat]

/-- The four digits of a control character. -/
theorem hexNumber_control {n : Nat} (h : n < 0x20) :
    hexNumber ['0', '0', Nat.digitChar (n / 16), Nat.digitChar (n % 16)] = some n := by
  revert n
  decide

/-- The octets of a character that is written as itself stand for themselves. -/
theorem plain_of_mem_octets {c : Char} (hquote : c ≠ '"') (hmark : c ≠ '\\')
    (hlow : 0x20 ≤ c.toNat) : ∀ d ∈ octets [c], Piece.Plain d := by
  intro d hd
  by_cases hc : c.toNat < 0x80
  · rw [octets_ascii _ (by simpa using hc), List.mem_singleton] at hd
    subst hd
    exact ⟨hquote, hmark, hlow⟩
  · simp only [octets, Text.encodeUtf8, List.flatMap_cons, List.flatMap_nil, List.append_nil,
      List.mem_map] at hd
    obtain ⟨b, hb, rfl⟩ := hd
    have hd : 0x80 ≤ (Char.ofNat b.toNat).toNat := by
      rw [toNat_octet]
      exact le_of_mem_encodeChar (by omega) hb
    refine ⟨?_, ?_, by omega⟩
    · intro heq
      rw [heq] at hd
      exact absurd hd (by decide)
    · intro heq
      rw [heq] at hd
      exact absurd hd (by decide)

/-- Inside a string, a text is read as one character: as pieces that give its octets. -/
def Spells (text : List Char) (c : Char) : Prop :=
  ∃ spelt : List Piece,
    (∀ rest, readPieces (octets text ++ rest)
      = (readPieces rest).map fun (pieces, rest) => (spelt ++ pieces, rest))
    ∧ ∀ pieces, octetsOf (spelt ++ pieces) = (octetsOf pieces).map (String.utf8EncodeChar c ++ ·)

theorem spells_short {mark c : Char} (h : shortEscape mark = some c) (hmark : mark.toNat < 0x80)
    (hc : c.toNat < 0x80) : Spells ['\\', mark] c := by
  refine ⟨[.octet c], ?_, octetsOf_ascii hc⟩
  rw [octets_ascii _ (by simpa using hmark)]
  exact readPieces_short h

theorem spells_control {c : Char} (h : c.toNat < 0x20) :
    Spells ['\\', 'u', '0', '0', Nat.digitChar (c.toNat / 16), Nat.digitChar (c.toNat % 16)] c := by
  refine ⟨[.unit c.toNat], ?_, octetsOf_unit (by omega)⟩
  have hdigit : ∀ n < 16, (Nat.digitChar n).toNat < 0x80 := by decide
  have hhigh := hdigit (c.toNat / 16) (by omega)
  have hlow := hdigit (c.toNat % 16) (by omega)
  rw [octets_ascii _ (by simpa using ⟨hhigh, hlow⟩)]
  exact readPieces_unit (hexNumber_control h)

theorem spells_self {c : Char} (hquote : c ≠ '"') (hmark : c ≠ '\\') (hlow : 0x20 ≤ c.toNat) :
    Spells [c] c := by
  refine ⟨(octets [c]).map .octet, readPieces_plain (plain_of_mem_octets hquote hmark hlow), ?_⟩
  intro pieces
  have hone : Text.encodeUtf8 [c] = String.utf8EncodeChar c := by simp [Text.encodeUtf8]
  rw [octets, List.map_map, hone]
  exact octetsOf_octets _ pieces

/-- A written character is read as itself. -/
theorem spells_quoteChar (c : Char) : Spells (quoteChar c) c := by
  fun_cases quoteChar c with
  | case1 => exact spells_short rfl (by decide) (by decide)
  | case2 => exact spells_short rfl (by decide) (by decide)
  | case3 => exact spells_short rfl (by decide) (by decide)
  | case4 => exact spells_short rfl (by decide) (by decide)
  | case5 => exact spells_short rfl (by decide) (by decide)
  | case6 => exact spells_short rfl (by decide) (by decide)
  | case7 => exact spells_short rfl (by decide) (by decide)
  | case8 => exact spells_control ‹_›
  | case9 => exact spells_self ‹_› ‹_› (by omega)

/-- What stands between the quotes of a written text is read up to the closing quote, as
    pieces that form the text. -/
theorem readPieces_quoted (text : String) (rest : List Char) : ∃ pieces,
    readPieces (octets (text.toList.flatMap quoteChar) ++ '"' :: rest) = some (pieces, rest)
    ∧ textOf pieces = some text := by
  have hread : ∀ chars : List Char, ∃ pieces,
      readPieces (octets (chars.flatMap quoteChar) ++ '"' :: rest) = some (pieces, rest)
      ∧ octetsOf pieces = some (Text.encodeUtf8 chars) := by
    intro chars
    induction chars with
    | nil => exact ⟨[], rfl, rfl⟩
    | cons c later ih =>
        obtain ⟨pieces, hread, hoctets⟩ := ih
        obtain ⟨spelt, hspelt, hgives⟩ := spells_quoteChar c
        refine ⟨spelt ++ pieces, ?_, ?_⟩
        · rw [List.flatMap_cons, octets_append, List.append_assoc, hspelt, hread]
          rfl
        · rw [hgives, hoctets]
          rfl
  obtain ⟨pieces, hpieces, hoctets⟩ := hread text.toList
  refine ⟨pieces, hpieces, ?_⟩
  simp only [textOf, hoctets, Option.map_some, Text.decodeUtf8_encodeUtf8, String.ofList_toList]

-- ── Values ───────────────────────────────────────────────────────────────────

theorem skipBlanks_append {blanks : List Char} (h : ∀ c ∈ blanks, c = ' ' ∨ c = '\n')
    (rest : List Char) : skipBlanks (blanks ++ rest) = skipBlanks rest := by
  refine List.dropWhile_append_of_pos fun c hc => ?_
  rcases h c hc with rfl | rfl <;> rfl

theorem octets_quote (text : String) (rest : List Char) :
    octets (quote text).toList ++ rest
      = '"' :: (octets (text.toList.flatMap quoteChar) ++ '"' :: rest) := by
  rw [quote, String.toList_ofList, List.cons_append, octets_cons, octets_append,
    octets_ascii ['"'] (by decide)]
  simp

variable {fuel : Nat} {text rest : List Char}

/-- A written string is read back. -/
theorem readValue_quote {s : String} (h : skipBlanks text = octets (quote s).toList ++ rest) :
    readValue (fuel + 1) text = some (.string (some s), rest) := by
  obtain ⟨pieces, hpieces, hs⟩ := readPieces_quoted s rest
  rw [octets_quote] at h
  simp only [readValue, h, hpieces, hs, Option.map_some]

theorem readValue_array {later after : List Char} (h : skipBlanks text = '[' :: later)
    (hlater : skipBlanks later = '"' :: after) :
    readValue (fuel + 1) text
      = (readItems fuel ('"' :: after)).map fun (items, rest) => (.array items, rest) := by
  simp only [readValue, h, hlater]
  rfl

theorem readItems_cons {s : String} {after later : List Char} {items : List Value}
    (h : skipBlanks text = octets (quote s).toList ++ after)
    (hafter : skipBlanks after = ',' :: later)
    (hlater : readItems (fuel + 1) later = some (items, rest)) :
    readItems (fuel + 2) text = some (.string (some s) :: items, rest) := by
  rw [readItems]
  simp only [readValue_quote h, Option.bind_eq_bind, Option.bind_some, hafter, hlater]
  rfl

theorem readItems_last {s : String} {after : List Char}
    (h : skipBlanks text = octets (quote s).toList ++ after)
    (hafter : skipBlanks after = ']' :: rest) :
    readItems (fuel + 2) text = some ([.string (some s)], rest) := by
  rw [readItems]
  simp only [readValue_quote h, Option.bind_eq_bind, Option.bind_some, hafter]
  rfl

-- ── Lists of strings ─────────────────────────────────────────────────────────

/-- The lines of a written list between its brackets. -/
def itemLines (indent : String) (texts : List String) : String :=
  ",\n".intercalate (texts.map fun s => indent ++ "  " ++ quote s)

theorem itemLines_cons (indent s next : String) (later : List String) :
    itemLines indent (s :: next :: later)
      = indent ++ "  " ++ quote s ++ (",\n" ++ itemLines indent (next :: later)) := by
  rw [itemLines, List.map_cons, List.map_cons, String.intercalate_cons_cons, String.append_assoc]
  rfl

section Lists

variable {indent : String} (hindent : ∀ c ∈ indent.toList, c = ' ')
include hindent

theorem octets_indent : octets indent.toList = indent.toList :=
  octets_ascii _ <| List.all_eq_true.2 fun c hc => by
    rw [hindent c hc]
    decide

/-- An item of a written list stands after blanks. -/
theorem skipBlanks_item (s : String) (rest : List Char) :
    skipBlanks (octets (indent ++ "  " ++ quote s).toList ++ rest)
      = octets (quote s).toList ++ rest := by
  have hblank : ∀ c ∈ (indent ++ "  ").toList, c = ' ' := by
    intro c hc
    rcases List.mem_append.1 (String.toList_append ▸ hc) with hc | hc
    · exact hindent c hc
    · simpa using hc
  rw [String.toList_append, octets_append, octets_indent hblank, List.append_assoc,
    skipBlanks_append fun c hc => .inl (hblank c hc), octets_quote]
  rfl

/-- The items of a written list are read back, with the closing bracket. -/
theorem readItems_itemLines (s : String) (later : List String) (hfuel : later.length + 2 ≤ fuel)
    (htext : skipBlanks text = skipBlanks (octets (itemLines indent (s :: later)).toList
      ++ '\n' :: (indent.toList ++ ']' :: rest))) :
    readItems fuel text = some ((s :: later).map fun s => .string (some s), rest) := by
  induction later generalizing s fuel text with
  | nil =>
      obtain ⟨fuel, rfl⟩ := Nat.exists_eq_add_of_le' hfuel
      rw [itemLines, List.map_singleton, String.intercalate_singleton,
        skipBlanks_item hindent] at htext
      refine readItems_last htext ?_
      rw [← List.cons_append, skipBlanks_append]
      · rfl
      · simpa using fun c hc => .inl (hindent c hc)
  | cons next later ih =>
      obtain ⟨fuel, rfl⟩ := Nat.exists_eq_add_of_le' hfuel
      rw [itemLines_cons, String.toList_append, octets_append, List.append_assoc, skipBlanks_item hindent,
        String.toList_append, octets_append, octets_ascii ",\n".toList (by decide),
        List.append_assoc] at htext
      refine readItems_cons htext rfl (ih next (by simp) rfl)

/-- The first item of a written list starts with its quote. -/
theorem skipBlanks_itemLines (s : String) (later : List String) (rest : List Char) :
    ∃ after, skipBlanks (octets (itemLines indent (s :: later)).toList ++ rest) = '"' :: after := by
  cases later with
  | nil =>
      rw [itemLines, List.map_singleton, String.intercalate_singleton, skipBlanks_item hindent,
        octets_quote]
      exact ⟨_, rfl⟩
  | cons next later =>
      rw [itemLines_cons, String.toList_append, octets_append, List.append_assoc,
        skipBlanks_item hindent, octets_quote]
      exact ⟨_, rfl⟩

/-- A written list of texts is read back. -/
theorem readValue_quoteList {texts : List String} (hfuel : texts.length + 2 ≤ fuel)
    (htext : skipBlanks text = octets (quoteList indent texts).toList ++ rest) :
    readValue fuel text = some (.array (texts.map fun s => .string (some s)), rest) := by
  obtain ⟨fuel, rfl⟩ := Nat.exists_eq_add_of_le' hfuel
  cases texts with
  | nil =>
      have hlist : quoteList indent [] = "[]" := rfl
      rw [hlist, octets_ascii "[]".toList (by decide)] at htext
      simp only [readValue, htext]
      rfl
  | cons s later =>
      have hlist : quoteList indent (s :: later)
          = "[\n" ++ (itemLines indent (s :: later) ++ ("\n" ++ (indent ++ "]"))) := by
        simp only [quoteList, itemLines, List.isEmpty_cons, Bool.false_eq_true, if_false,
          String.append_assoc]
      simp only [hlist, String.toList_append, octets_append, octets_indent hindent,
        octets_ascii "[\n".toList (by decide), octets_ascii "\n".toList (by decide),
        octets_ascii "]".toList (by decide), List.append_assoc] at htext
      obtain ⟨after, hafter⟩ := skipBlanks_itemLines hindent s later
        ("\n".toList ++ (indent.toList ++ ("]".toList ++ rest)))
      have hitems : readItems (fuel + (later.length + 2)) ('"' :: after) = _ :=
        readItems_itemLines hindent s later (by omega) hafter.symm
      have hread : readValue (fuel + (later.length + 2) + 1) text = _ :=
        readValue_array htext hafter
      rw [hitems] at hread
      exact hread

end Lists

/-- A written list starts with its bracket. -/
theorem skipBlanks_quoteList (indent : String) (texts : List String) (rest : List Char) :
    skipBlanks (octets (quoteList indent texts).toList ++ rest)
      = octets (quoteList indent texts).toList ++ rest := by
  cases texts with
  | nil =>
      have hlist : quoteList indent [] = "[]" := rfl
      rw [hlist, octets_ascii "[]".toList (by decide)]
      rfl
  | cons s later =>
      simp only [quoteList, List.isEmpty_cons, Bool.false_eq_true, if_false, String.append_assoc,
        String.toList_append, octets_append, octets_ascii "[\n".toList (by decide)]
      rfl

theorem texts?_map_string (texts : List String) :
    (Value.array (texts.map fun s => .string (some s))).texts? = some texts := by
  rw [Value.texts?]
  induction texts with
  | nil => rfl
  | cons s later ih =>
      rw [List.map_cons, List.mapM_cons, ih]
      rfl

-- ── Numbers ──────────────────────────────────────────────────────────────────

/-- A written number has no leading zero, except for zero itself. -/
theorem head?_decimal {n : Nat} (hn : 0 < n) : (Text.decimal n).head? ≠ some '0' := by
  induction n using Nat.strongRecOn with
  | ind n ih =>
      by_cases hlt : n < 10
      · have hdigit : ∀ n < 10, 0 < n → some (Nat.digitChar n) ≠ some '0' := by decide
        rw [Text.decimal, Nat.toDigits_of_lt_base hlt]
        exact hdigit n hlt hn
      · obtain ⟨first, later, hdigits, -⟩ := Text.exists_decimal_eq_cons (n / 10)
        have hfirst := ih (n / 10) (by omega) (by omega)
        rw [hdigits] at hfirst
        rw [Text.decimal, Nat.toDigits_of_base_le (by decide) (by omega), ← Text.decimal, hdigits]
        exact hfirst

theorem valueOfDigits_decimal (n : Nat) : valueOfDigits (Text.decimal n) = n := by
  have hvalue : Nat.ofDigitChars 10 (Text.decimal n) 0 = n := Nat.ofDigitChars_ten_toDigits
  simpa only [Nat.ofDigitChars_eq_foldl, valueOfDigits, Nat.mul_comm] using hvalue

theorem decimal_append_ne (n : Nat) (rest : List Char) {c : Char} {later : List Char}
    (hc : c.isDigit = false) : Text.decimal n ++ rest ≠ c :: later := by
  intro heq
  obtain ⟨first, others, hdigits, hfirst⟩ := Text.exists_decimal_eq_cons n
  rw [hdigits, List.cons_append] at heq
  rw [(List.cons.inj heq).1, hc] at hfirst
  exact Bool.false_ne_true hfirst

theorem readDigits_decimal (n : Nat) (rest : List Char) :
    readDigits (Text.decimal n ++ '\n' :: rest) = some (Text.decimal n, '\n' :: rest) := by
  have hdigits : ∀ c ∈ Text.decimal n, c.isDigit = true := fun _ => Text.isDigit_of_mem_decimal
  have hne : (Text.decimal n).isEmpty = false := by
    rw [List.isEmpty_eq_false_iff]
    exact Nat.toDigits_ne_nil
  have htake : (Text.decimal n ++ '\n' :: rest).takeWhile Char.isDigit = Text.decimal n := by
    rw [List.takeWhile_append_of_pos hdigits]
    simp
  have hdrop : (Text.decimal n ++ '\n' :: rest).dropWhile Char.isDigit = '\n' :: rest := by
    rw [List.dropWhile_append_of_pos hdigits]
    rfl
  rw [readDigits, htake, hdrop, if_neg (by simp [hne])]

/-- A written number is read back, if a line ends after it. -/
theorem readNumber_decimal (n : Nat) (rest : List Char) :
    readNumber (Text.decimal n ++ '\n' :: rest) = some (.natural n, '\n' :: rest) := by
  have hzero : ¬ ((Text.decimal n).head? = some '0' ∧ (Text.decimal n).length ≠ 1) := by
    rintro ⟨hhead, hlength⟩
    cases n with
    | zero => exact hlength rfl
    | succ n => exact head?_decimal n.succ_pos hhead
  rw [readNumber]
  · simp only [readDigits_decimal, Option.bind_eq_bind, Option.bind_some, if_neg hzero,
      readFraction, readExponent, valueOfDigits_decimal]
    rfl
  · exact fun later => decimal_append_ne n _ rfl

theorem skipBlanks_decimal (n : Nat) (rest : List Char) :
    skipBlanks (Text.decimal n ++ rest) = Text.decimal n ++ rest := by
  obtain ⟨first, later, hdigits, hfirst⟩ := Text.exists_decimal_eq_cons n
  rw [hdigits, skipBlanks, List.cons_append, List.dropWhile_cons_of_neg]
  intro hblank
  simp only [Bool.or_eq_true, beq_iff_eq] at hblank
  rcases hblank with ((rfl | rfl) | rfl) | rfl <;> exact absurd hfirst (by decide)

/-- A written number is read back, if a line ends after it. -/
theorem readValue_decimal {n : Nat} (h : skipBlanks text = Text.decimal n ++ '\n' :: rest) :
    readValue (fuel + 1) text = some (.natural n, '\n' :: rest) := by
  rw [readValue, h]
  split
  case h_7 => exact readNumber_decimal n rest
  all_goals
    next heq => exact absurd heq (decimal_append_ne n _ rfl)

-- ── Objects ──────────────────────────────────────────────────────────────────

/-- Blanks before an entry do not matter. -/
theorem readEntries_congr {other : List Char} (h : skipBlanks text = skipBlanks other) :
    readEntries fuel text = readEntries fuel other := by
  cases fuel with
  | zero => rfl
  | succ fuel => rw [readEntries, readEntries, h]

theorem readValue_object {later after : List Char} (h : skipBlanks text = '\x7b' :: later)
    (hlater : skipBlanks later = '"' :: after) :
    readValue (fuel + 1) text
      = (readEntries fuel later).map fun (entries, rest) => (.object entries, rest) := by
  have hblank : skipBlanks later = skipBlanks ('"' :: after) := hlater
  rw [readEntries_congr hblank]
  simp only [readValue, h, hlater]
  rfl

theorem skipBlanks_colon (after : List Char) : skipBlanks (':' :: after) = ':' :: after := rfl

theorem readEntries_cons {key : String} {v : Value} {after next later : List Char}
    {entries : List (Option String × Value)}
    (h : skipBlanks text = octets (quote key).toList ++ ':' :: after)
    (hvalue : readValue fuel after = some (v, next)) (hnext : skipBlanks next = ',' :: later)
    (hlater : readEntries fuel later = some (entries, rest)) :
    readEntries (fuel + 1) text = some ((some key, v) :: entries, rest) := by
  obtain ⟨pieces, hpieces, hkey⟩ := readPieces_quoted key (':' :: after)
  rw [octets_quote] at h
  rw [readEntries]
  simp only [h, hpieces, hkey, Option.bind_eq_bind, Option.bind_some, skipBlanks_colon, hvalue,
    hnext, hlater]
  rfl

theorem readEntries_last {key : String} {v : Value} {after next : List Char}
    (h : skipBlanks text = octets (quote key).toList ++ ':' :: after)
    (hvalue : readValue fuel after = some (v, next)) (hnext : skipBlanks next = '\x7d' :: rest) :
    readEntries (fuel + 1) text = some ([(some key, v)], rest) := by
  obtain ⟨pieces, hpieces, hkey⟩ := readPieces_quoted key (':' :: after)
  rw [octets_quote] at h
  rw [readEntries]
  simp only [h, hpieces, hkey, Option.bind_eq_bind, Option.bind_some, skipBlanks_colon, hvalue,
    hnext]
  rfl

/-- A written text is read as the value that ends with it. -/
theorem read_encodeUtf8 {text : List Char} {v : Value}
    (h : readValue (2 * (octets text).length + 2) (octets text) = some (v, [])) :
    read (Text.encodeUtf8 text) = some v := by
  rw [octets] at h
  rw [read, h]
  rfl

-- ── Lengths ──────────────────────────────────────────────────────────────────

theorem length_le_octets (text : List Char) : text.length ≤ (octets text).length := by
  induction text with
  | nil => exact Nat.le_refl 0
  | cons c later ih =>
      have hc : 0 < (octets [c]).length := by
        simp [octets, Text.encodeUtf8, Char.utf8Size_pos]
      rw [octets_cons, List.length_append, List.length_cons]
      omega

theorem length_le_itemLines (indent s : String) (later : List String) :
    later.length + 2 ≤ (itemLines indent (s :: later)).length := by
  have hquote : ∀ s, 2 ≤ (quote s).length := by
    intro s
    simp only [quote, String.length_ofList, List.length_append, List.length_cons, List.length_nil]
    omega
  induction later generalizing s with
  | nil =>
      have hs := hquote s
      rw [itemLines, List.map_singleton, String.intercalate_singleton]
      simp only [String.length_append, List.length_nil]
      omega
  | cons next later ih =>
      have hlater := ih next
      have hs := hquote s
      rw [itemLines_cons]
      simp only [String.length_append, List.length_cons]
      omega

/-- A written list is no shorter than the number of its items. -/
theorem length_le_quoteList (indent : String) (texts : List String) :
    texts.length ≤ (quoteList indent texts).length := by
  cases texts with
  | nil => exact Nat.zero_le _
  | cons s later =>
      have hlines := length_le_itemLines indent s later
      rw [itemLines] at hlines
      simp only [quoteList, List.isEmpty_cons, Bool.false_eq_true, if_false, String.length_append,
        List.length_cons]
      omega

end Nomenclator.Json
