import Nomenclator.Text.Utf8

/-! # UTF-8 — encoding and decoding are inverse to each other

    A character takes one to four octets: a first one, from which the reader sees
    how many there are, and continuations with six bits each.  The bounds on the
    second octet leave out what no character is encoded as.

    So what is encoded is decoded again (`decodeUtf8_encodeUtf8`), and what is decoded
    is encoded again (`encodeUtf8_of_decodeUtf8`).  Where octets are replaced, the other
    characters stand in the octets (`infix_of_mem_decodeLossy`), and nothing was replaced
    if no replacement is seen (`encodeUtf8_decodeLossy`). -/

namespace Nomenclator.Text

-- ── Octets ───────────────────────────────────────────────────────────────────

theorem toNat_ofNat_of_lt {n : Nat} (h : n < 256) : (UInt8.ofNat n).toNat = n := by
  rw [UInt8.toNat_ofNat', Nat.mod_eq_of_lt h]

theorem ofNat_lt_iff {n : Nat} (hn : n < 256) (b : UInt8) : UInt8.ofNat n < b ↔ n < b.toNat := by
  rw [UInt8.lt_iff_toNat_lt, toNat_ofNat_of_lt hn]

theorem ofNat_eq_iff {n : Nat} (hn : n < 256) (b : UInt8) : UInt8.ofNat n = b ↔ n = b.toNat := by
  rw [← UInt8.toNat_inj, toNat_ofNat_of_lt hn]

/-- Is an octet between two others? -/
theorem between_toNat {b : UInt8} (low high : UInt8) :
    (decide (low ≤ b) && decide (b ≤ high)) = true
      ↔ low.toNat ≤ b.toNat ∧ b.toNat ≤ high.toNat := by
  rw [Bool.and_eq_true, decide_eq_true_eq, decide_eq_true_eq, UInt8.le_iff_toNat_le,
    UInt8.le_iff_toNat_le]

theorem between_iff {n : Nat} (hn : n < 256) (low high : UInt8) :
    (decide (low ≤ UInt8.ofNat n) && decide (UInt8.ofNat n ≤ high)) = true
      ↔ low.toNat ≤ n ∧ n ≤ high.toNat := by
  rw [between_toNat, toNat_ofNat_of_lt hn]

theorem isContinuation_ofNat {n : Nat} (h : n < 64) :
    isContinuation (UInt8.ofNat (n + 0x80)) = true :=
  (between_iff (by omega) 0x80 0xBF).2 (show 0x80 ≤ n + 0x80 ∧ n + 0x80 ≤ 0xBF by omega)

theorem payload_ofNat {n : Nat} (h : n < 64) : payload (UInt8.ofNat (n + 0x80)) = n := by
  rw [payload, toNat_ofNat_of_lt (by omega)]
  omega

/-- After a first octet, a second one fits that stays in its bounds. -/
theorem secondFits_ofNat {first n : Nat} (hfirst : first < 256) (h : n < 64)
    (hE0 : first = 0xE0 → 0x20 ≤ n) (hED : first = 0xED → n < 0x20)
    (hF0 : first = 0xF0 → 0x10 ≤ n) (hF4 : first = 0xF4 → n < 0x10) :
    secondFits (UInt8.ofNat first) (UInt8.ofNat (n + 0x80)) = true := by
  have hn : n + 0x80 < 256 := by omega
  rw [secondFits]
  by_cases h1 : first = 0xE0
  · rw [if_pos ((ofNat_eq_iff hfirst 0xE0).2 h1)]
    exact (between_iff hn 0xA0 0xBF).2 (show 0xA0 ≤ n + 0x80 ∧ n + 0x80 ≤ 0xBF by omega)
  rw [if_neg (mt (ofNat_eq_iff hfirst 0xE0).1 h1)]
  by_cases h2 : first = 0xED
  · rw [if_pos ((ofNat_eq_iff hfirst 0xED).2 h2)]
    exact (between_iff hn 0x80 0x9F).2 (show 0x80 ≤ n + 0x80 ∧ n + 0x80 ≤ 0x9F by omega)
  rw [if_neg (mt (ofNat_eq_iff hfirst 0xED).1 h2)]
  by_cases h3 : first = 0xF0
  · rw [if_pos ((ofNat_eq_iff hfirst 0xF0).2 h3)]
    exact (between_iff hn 0x90 0xBF).2 (show 0x90 ≤ n + 0x80 ∧ n + 0x80 ≤ 0xBF by omega)
  rw [if_neg (mt (ofNat_eq_iff hfirst 0xF0).1 h3)]
  by_cases h4 : first = 0xF4
  · rw [if_pos ((ofNat_eq_iff hfirst 0xF4).2 h4)]
    exact (between_iff hn 0x80 0x8F).2 (show 0x80 ≤ n + 0x80 ∧ n + 0x80 ≤ 0x8F by omega)
  rw [if_neg (mt (ofNat_eq_iff hfirst 0xF4).1 h4)]
  exact isContinuation_ofNat h

-- ── Sequences ────────────────────────────────────────────────────────────────

variable (index : Nat) (rest : Bytes)

theorem decodeUtf8From_one {n : Nat} (h : n < 0x80) :
    decodeUtf8From index (UInt8.ofNat n :: rest)
      = (decodeUtf8From (index + 1) rest).map (Char.ofNat n :: ·) := by
  have hfirst : n < 256 := by omega
  rw [decodeUtf8From.eq_def]
  dsimp only
  rw [if_pos ((ofNat_lt_iff hfirst 0x80).2 h), toNat_ofNat_of_lt hfirst]

theorem decodeUtf8From_two {a b : Nat} (ha : 2 ≤ a) (ha' : a < 32) (hb : b < 64) :
    decodeUtf8From index (UInt8.ofNat (a + 0xC0) :: UInt8.ofNat (b + 0x80) :: rest)
      = (decodeUtf8From (index + 2) rest).map (Char.ofNat (a * 64 + b) :: ·) := by
  have hfirst : a + 0xC0 < 256 := by omega
  rw [decodeUtf8From.eq_def]
  dsimp only
  rw [if_neg (mt (ofNat_lt_iff hfirst 0x80).1 (show ¬ a + 0xC0 < 0x80 by omega)),
    if_pos ((between_iff hfirst 0xC2 0xDF).2 (show 0xC2 ≤ a + 0xC0 ∧ a + 0xC0 ≤ 0xDF by omega)),
    if_pos (isContinuation_ofNat hb), payload_ofNat hb, toNat_ofNat_of_lt hfirst,
    show (a + 0xC0) % 32 = a by omega]

theorem decodeUtf8From_three {a b c : Nat} (ha : a < 16) (hb : b < 64) (hc : c < 64)
    (hlow : a = 0 → 32 ≤ b) (hsurrogate : a = 13 → b < 32) :
    decodeUtf8From index
        (UInt8.ofNat (a + 0xE0) :: UInt8.ofNat (b + 0x80) :: UInt8.ofNat (c + 0x80) :: rest)
      = (decodeUtf8From (index + 3) rest).map (Char.ofNat ((a * 64 + b) * 64 + c) :: ·) := by
  have hfirst : a + 0xE0 < 256 := by omega
  have hsecond := secondFits_ofNat hfirst hb (by omega) (by omega) (by omega) (by omega)
  rw [decodeUtf8From.eq_def]
  dsimp only
  rw [if_neg (mt (ofNat_lt_iff hfirst 0x80).1 (show ¬ a + 0xE0 < 0x80 by omega)),
    if_neg (mt (between_iff hfirst 0xC2 0xDF).1 (show ¬ (0xC2 ≤ a + 0xE0 ∧ a + 0xE0 ≤ 0xDF) by omega)),
    if_pos ((between_iff hfirst 0xE0 0xEF).2 (show 0xE0 ≤ a + 0xE0 ∧ a + 0xE0 ≤ 0xEF by omega)),
    if_pos hsecond, if_pos (isContinuation_ofNat hc), payload_ofNat hb, payload_ofNat hc,
    toNat_ofNat_of_lt hfirst, show (a + 0xE0) % 16 = a by omega]

theorem decodeUtf8From_four {a b c d : Nat} (ha : a ≤ 4) (hb : b < 64) (hc : c < 64) (hd : d < 64)
    (hlow : a = 0 → 16 ≤ b) (hhigh : a = 4 → b < 16) :
    decodeUtf8From index
        (UInt8.ofNat (a + 0xF0) :: UInt8.ofNat (b + 0x80) :: UInt8.ofNat (c + 0x80)
          :: UInt8.ofNat (d + 0x80) :: rest)
      = (decodeUtf8From (index + 4) rest).map
          (Char.ofNat (((a * 64 + b) * 64 + c) * 64 + d) :: ·) := by
  have hfirst : a + 0xF0 < 256 := by omega
  have hsecond := secondFits_ofNat hfirst hb (by omega) (by omega) (by omega) (by omega)
  rw [decodeUtf8From.eq_def]
  dsimp only
  rw [if_neg (mt (ofNat_lt_iff hfirst 0x80).1 (show ¬ a + 0xF0 < 0x80 by omega)),
    if_neg (mt (between_iff hfirst 0xC2 0xDF).1 (show ¬ (0xC2 ≤ a + 0xF0 ∧ a + 0xF0 ≤ 0xDF) by omega)),
    if_neg (mt (between_iff hfirst 0xE0 0xEF).1 (show ¬ (0xE0 ≤ a + 0xF0 ∧ a + 0xF0 ≤ 0xEF) by omega)),
    if_pos ((between_iff hfirst 0xF0 0xF4).2 (show 0xF0 ≤ a + 0xF0 ∧ a + 0xF0 ≤ 0xF4 by omega)),
    if_pos hsecond, if_pos (isContinuation_ofNat hc), if_pos (isContinuation_ofNat hd),
    payload_ofNat hb, payload_ofNat hc, payload_ofNat hd, toNat_ofNat_of_lt hfirst,
    show (a + 0xF0) % 8 = a by omega]

/-- The octets of a character are decoded to it. -/
theorem decodeUtf8From_encodeChar (c : Char) :
    ∃ later, decodeUtf8From index (String.utf8EncodeChar c ++ rest)
      = (decodeUtf8From later rest).map (c :: ·) := by
  have hvalid : c.val.toNat < 0xD800 ∨ (0xDFFF < c.val.toNat ∧ c.val.toNat < 0x110000) := c.valid
  have hof : Char.ofNat c.val.toNat = c := Char.ofNat_toNat c
  rw [String.utf8EncodeChar]
  generalize c.val.toNat = v at hvalid hof
  subst hof
  by_cases h1 : v ≤ 0x7F
  · rw [if_pos h1]
    exact ⟨_, decodeUtf8From_one index rest (by omega)⟩
  rw [if_neg h1]
  by_cases h2 : v ≤ 0x7FF
  · rw [if_pos h2]
    have hv : v / 64 % 32 * 64 + v % 64 = v := by omega
    have hdecode := decodeUtf8From_two index rest (a := v / 64 % 32) (b := v % 64) (by omega)
      (by omega) (by omega)
    rw [hv] at hdecode
    exact ⟨_, hdecode⟩
  rw [if_neg h2]
  by_cases h3 : v ≤ 0xFFFF
  · rw [if_pos h3]
    have hv : (v / 4096 % 16 * 64 + v / 64 % 64) * 64 + v % 64 = v := by omega
    have hdecode := decodeUtf8From_three index rest (a := v / 4096 % 16) (b := v / 64 % 64)
      (c := v % 64) (by omega) (by omega) (by omega) (by omega) (by omega)
    rw [hv] at hdecode
    exact ⟨_, hdecode⟩
  rw [if_neg h3]
  have hv : ((v / 262144 % 8 * 64 + v / 4096 % 64) * 64 + v / 64 % 64) * 64 + v % 64 = v := by
    omega
  have hdecode := decodeUtf8From_four index rest (a := v / 262144 % 8) (b := v / 4096 % 64)
    (c := v / 64 % 64) (d := v % 64) (by omega) (by omega) (by omega) (by omega) (by omega)
    (by omega)
  rw [hv] at hdecode
  exact ⟨_, hdecode⟩

/-- **What is encoded is decoded again.** -/
theorem decodeUtf8_encodeUtf8 (text : List Char) : decodeUtf8 (encodeUtf8 text) = .ok text := by
  have hfrom : ∀ index, decodeUtf8From index (encodeUtf8 text) = .ok text := by
    induction text with
    | nil => exact fun _ => rfl
    | cons c later ih =>
        intro index
        obtain ⟨next, hnext⟩ := decodeUtf8From_encodeChar index (encodeUtf8 later) c
        rw [encodeUtf8, List.flatMap_cons, ← encodeUtf8, hnext, ih]
        rfl
  exact hfrom 0

theorem encodeUtf8_injective {text text' : List Char} (h : encodeUtf8 text = encodeUtf8 text') :
    text = text' :=
  Except.ok.inj <| by rw [← decodeUtf8_encodeUtf8 text, h, decodeUtf8_encodeUtf8]

/-- Nothing has to be replaced in what was encoded. -/
theorem decodeLossy_encodeUtf8 (text : List Char) : decodeLossy (encodeUtf8 text) = text := by
  rw [decodeLossy, decodeLossyWithin, decodeUtf8_encodeUtf8]

-- ── Octets of characters ─────────────────────────────────────────────────────

theorem isContinuation_bounds {b : UInt8} (h : isContinuation b = true) :
    0x80 ≤ b.toNat ∧ b.toNat ≤ 0xBF :=
  (between_toNat 0x80 0xBF).1 h

/-- A second octet that fits continues the sequence, within the bounds for its first octet. -/
theorem secondFits_bounds {first second : UInt8} (h : secondFits first second = true) :
    (0x80 ≤ second.toNat ∧ second.toNat ≤ 0xBF)
      ∧ (first.toNat = 0xE0 → 0xA0 ≤ second.toNat) ∧ (first.toNat = 0xED → second.toNat ≤ 0x9F)
      ∧ (first.toNat = 0xF0 → 0x90 ≤ second.toNat) ∧ (first.toNat = 0xF4 → second.toNat ≤ 0x8F) := by
  simp only [secondFits, isContinuation, ← UInt8.toNat_inj] at h
  repeat' split at h
  all_goals
    rw [between_toNat] at h
    simp only [UInt8.reduceToNat] at *
    omega

theorem eq_ofNat {b : UInt8} {n : Nat} (h : n = b.toNat) : UInt8.ofNat n = b := by
  rw [h, UInt8.ofNat_toNat]

theorem val_ofNat {v : Nat} (h : v < 0xD800 ∨ (0xDFFF < v ∧ v < 0x110000)) :
    (Char.ofNat v).val.toNat = v := by
  rw [Char.ofNat, dif_pos h]
  rfl

theorem encodeChar_one {b : UInt8} (h : b.toNat < 0x80) :
    String.utf8EncodeChar (Char.ofNat b.toNat) = [b] := by
  rw [String.utf8EncodeChar, val_ofNat (by omega)]
  rw [if_pos (by omega), eq_ofNat rfl]

theorem encodeChar_two {b b₂ : UInt8} (h : 0xC2 ≤ b.toNat ∧ b.toNat ≤ 0xDF)
    (h₂ : isContinuation b₂ = true) :
    String.utf8EncodeChar (Char.ofNat (b.toNat % 32 * 64 + payload b₂)) = [b, b₂] := by
  have h₂ := isContinuation_bounds h₂
  rw [payload, String.utf8EncodeChar, val_ofNat (by omega)]
  rw [if_neg (by omega), if_pos (by omega), eq_ofNat (b := b) (by omega),
    eq_ofNat (b := b₂) (by omega)]

theorem encodeChar_three {b b₂ b₃ : UInt8} (h : 0xE0 ≤ b.toNat ∧ b.toNat ≤ 0xEF)
    (h₂ : secondFits b b₂ = true) (h₃ : isContinuation b₃ = true) :
    String.utf8EncodeChar
        (Char.ofNat ((b.toNat % 16 * 64 + payload b₂) * 64 + payload b₃)) = [b, b₂, b₃] := by
  obtain ⟨h₂, hlow, hsurrogate, -, -⟩ := secondFits_bounds h₂
  have h₃ := isContinuation_bounds h₃
  rw [payload, payload, String.utf8EncodeChar, val_ofNat (by omega)]
  rw [if_neg (by omega), if_neg (by omega), if_pos (by omega), eq_ofNat (b := b) (by omega),
    eq_ofNat (b := b₂) (by omega), eq_ofNat (b := b₃) (by omega)]

theorem encodeChar_four {b b₂ b₃ b₄ : UInt8} (h : 0xF0 ≤ b.toNat ∧ b.toNat ≤ 0xF4)
    (h₂ : secondFits b b₂ = true) (h₃ : isContinuation b₃ = true) (h₄ : isContinuation b₄ = true) :
    String.utf8EncodeChar (Char.ofNat (((b.toNat % 8 * 64 + payload b₂) * 64 + payload b₃) * 64
        + payload b₄)) = [b, b₂, b₃, b₄] := by
  obtain ⟨h₂, -, -, hlow, hhigh⟩ := secondFits_bounds h₂
  have h₃ := isContinuation_bounds h₃
  have h₄ := isContinuation_bounds h₄
  rw [payload, payload, payload, String.utf8EncodeChar, val_ofNat (by omega)]
  rw [if_neg (by omega), if_neg (by omega), if_neg (by omega), eq_ofNat (b := b) (by omega),
    eq_ofNat (b := b₂) (by omega), eq_ofNat (b := b₃) (by omega), eq_ofNat (b := b₄) (by omega)]

/-- The octets before a decoded text are those of its first character. -/
theorem encode_cons {c : Char} {octets rest : Bytes} {decoded : Except Utf8Fault (List Char)}
    {text : List Char} (hchar : String.utf8EncodeChar c = octets)
    (h : decoded.map (c :: ·) = .ok text)
    (ih : ∀ later, decoded = .ok later → encodeUtf8 later = rest) :
    encodeUtf8 text = octets ++ rest := by
  cases decoded with
  | error fault => cases h
  | ok later =>
      obtain rfl := Except.ok.inj h
      rw [encodeUtf8, List.flatMap_cons, ← encodeUtf8, hchar, ih later rfl]

theorem encodeUtf8_of_decodeUtf8From {index : Nat} {bytes : Bytes} {text : List Char}
    (h : decodeUtf8From index bytes = .ok text) : encodeUtf8 text = bytes := by
  -- one case for each length of a sequence; the others are faults
  fun_induction decodeUtf8From index bytes generalizing text with
  | case1 =>
      cases h
      rfl
  | case2 index b rest hone ih =>
      exact encode_cons (encodeChar_one (UInt8.lt_iff_toNat_lt.1 hone)) h fun _ => ih
  | case4 index b _ htwo b₂ rest h₂ ih =>
      exact encode_cons (encodeChar_two ((between_toNat 0xC2 0xDF).1 htwo) h₂) h fun _ => ih
  | case8 index b _ _ hthree b₂ h₂ b₃ rest h₃ ih =>
      exact encode_cons (encodeChar_three ((between_toNat 0xE0 0xEF).1 hthree) h₂ h₃) h fun _ => ih
  | case14 index b _ _ _ hfour b₂ h₂ b₃ h₃ b₄ rest h₄ ih =>
      exact encode_cons (encodeChar_four ((between_toNat 0xF0 0xF4).1 hfour) h₂ h₃ h₄) h fun _ => ih
  | _ => cases h
/-- **What is decoded is encoded again.** -/
theorem encodeUtf8_of_decodeUtf8 {bytes : Bytes} {text : List Char}
    (h : decodeUtf8 bytes = .ok text) : encodeUtf8 text = bytes :=
  encodeUtf8_of_decodeUtf8From h

-- ── Replacements ─────────────────────────────────────────────────────────────

theorem infix_encodeUtf8 {c : Char} {text : List Char} (h : c ∈ text) :
    String.utf8EncodeChar c <:+: encodeUtf8 text := by
  obtain ⟨front, back, rfl⟩ := List.append_of_mem h
  refine ⟨encodeUtf8 front, encodeUtf8 back, ?_⟩
  rw [encodeUtf8, encodeUtf8, encodeUtf8, List.flatMap_append, List.flatMap_cons,
    List.append_assoc]

theorem infix_of_mem_decodeBefore {c : Char} {index : Nat} {bytes : Bytes}
    (h : c ∈ decodeBefore index bytes) : String.utf8EncodeChar c <:+: bytes := by
  rw [decodeBefore] at h
  cases hdecode : decodeUtf8 (bytes.take index) with
  | error fault =>
      rw [hdecode] at h
      cases h
  | ok text =>
      rw [hdecode] at h
      refine List.IsInfix.trans ?_ (List.take_prefix index bytes).isInfix
      exact encodeUtf8_of_decodeUtf8 hdecode ▸ infix_encodeUtf8 h

/-- What is shown stands in the octets, apart from replacements. -/
theorem infix_of_mem_decodeLossy {c : Char} (hc : c ≠ '\uFFFD') {bytes : Bytes}
    (h : c ∈ decodeLossy bytes) : String.utf8EncodeChar c <:+: bytes := by
  rw [decodeLossy] at h
  generalize bytes.length + 1 = faults at h
  induction faults generalizing bytes with
  | zero => cases h
  | succ faults ih =>
      rw [decodeLossyWithin] at h
      split at h
      · next text hdecode => exact encodeUtf8_of_decodeUtf8 hdecode ▸ infix_encodeUtf8 h
      · rcases List.mem_append.1 h with hbefore | hreplaced
        · exact infix_of_mem_decodeBefore hbefore
        · exact absurd (List.mem_singleton.1 hreplaced) hc
      · rcases List.mem_append.1 h with hbefore | hafter
        · exact infix_of_mem_decodeBefore hbefore
        · exact (ih ((List.mem_cons.1 hafter).resolve_left hc)).trans (List.drop_suffix _ _).isInfix

/-- If no replacement is seen, nothing was replaced. -/
theorem encodeUtf8_decodeLossy {bytes : Bytes} (h : '\uFFFD' ∉ decodeLossy bytes) :
    encodeUtf8 (decodeLossy bytes) = bytes := by
  rw [decodeLossy, decodeLossyWithin] at h ⊢
  split at h
  · next text hdecode => exact encodeUtf8_of_decodeUtf8 hdecode
  · exact absurd (List.mem_append_right _ (List.mem_singleton_self _)) h
  · exact absurd (List.mem_append_right _ List.mem_cons_self) h

end Nomenclator.Text
