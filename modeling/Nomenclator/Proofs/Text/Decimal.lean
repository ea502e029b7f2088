import Nomenclator.Text.Decimal

/-! # Decimal numbers — what is written is read back

    The digits of a number stand for it, and all that the reader appends on its way
    stays below the number itself.  So a number is read back under every limit that
    it does not pass (`readDecimal_decimal`). -/

namespace Nomenclator.Text

/-- Appending digits never makes a value smaller. -/
theorem le_ofDigitChars (digits : List Char) (value : Nat) :
    value ≤ Nat.ofDigitChars 10 digits value := by
  induction digits generalizing value with
  | nil => exact Nat.le_refl value
  | cons c rest ih =>
      rw [Nat.ofDigitChars_cons]
      have hrest := ih (10 * value + (c.toNat - '0'.toNat))
      omega

/-- Digits are read as the number that they stand for, if it is within the limit. -/
theorem readDigits_of_isDigit {limit value : Nat} {digits : List Char}
    (hdigits : ∀ c ∈ digits, c.isDigit = true) (h : Nat.ofDigitChars 10 digits value ≤ limit) :
    readDigits limit value digits = .ok (Nat.ofDigitChars 10 digits value) := by
  induction digits generalizing value with
  | nil => rfl
  | cons c rest ih =>
      rw [Nat.ofDigitChars_cons, Nat.mul_comm] at h ⊢
      have hnext := Nat.le_trans (le_ofDigitChars rest _) h
      rw [readDigits, digitValue, if_pos (hdigits c List.mem_cons_self)]
      dsimp only
      rw [if_pos hnext]
      exact ih (fun d hd => hdigits d (List.mem_cons_of_mem _ hd)) h

theorem isDigit_of_mem_decimal {n : Nat} {c : Char} (h : c ∈ decimal n) : c.isDigit = true :=
  Nat.isDigit_of_mem_toDigits (by decide) (by decide) h

/-- A written number has a first digit. -/
theorem exists_decimal_eq_cons (n : Nat) :
    ∃ first rest, decimal n = first :: rest ∧ first.isDigit = true := by
  have hne : decimal n ≠ [] := Nat.toDigits_ne_nil
  obtain ⟨first, rest, hdigits⟩ := List.exists_cons_of_ne_nil hne
  exact ⟨first, rest, hdigits, isDigit_of_mem_decimal (hdigits ▸ List.mem_cons_self)⟩

/-- A written number holds digits only. -/
theorem not_mem_decimal {c : Char} (hc : c.isDigit = false) (n : Nat) : c ∉ decimal n := by
  intro hmem
  rw [isDigit_of_mem_decimal hmem] at hc
  exact nomatch hc

/-- **A number is read back** under every limit that it does not pass. -/
theorem readDecimal_decimal {limit n : Nat} (h : n ≤ limit) :
    readDecimal limit (decimal n) = .ok n := by
  have hvalue : Nat.ofDigitChars 10 (decimal n) 0 = n := Nat.ofDigitChars_ten_toDigits
  have hread : readDigits limit 0 (decimal n) = .ok n := by
    rw [readDigits_of_isDigit (fun _ => isDigit_of_mem_decimal) (by rw [hvalue]; exact h), hvalue]
  have hplus : '+' ∉ decimal n := not_mem_decimal rfl n
  -- a number has a first digit, which is no sign
  obtain ⟨first, rest, hdigits, -⟩ := exists_decimal_eq_cons n
  rw [hdigits] at hread hplus ⊢
  have hfirst : first ≠ '+' := fun heq => hplus (heq ▸ List.mem_cons_self)
  rw [readDecimal]
  · exact hread
  · exact fun heq => nomatch heq
  · exact fun heq => hfirst (List.cons.inj heq).1
  · exact fun _ heq => hfirst (List.cons.inj heq).1

end Nomenclator.Text
