import ModelHost.Text.Basic

/-!
Unsigned numerals, with or without blanks around them. What is read as a number below a limit is a
row of decimal digits that may have a plus sign before it, and the number is the one it writes.
-/

namespace ModelHost.Text

structure Digits (limit : Nat) (text : List Char) (n : Nat) : Prop where
  nonempty : text ≠ []
  digits : ∀ c ∈ text, c.isDigit = true
  value : Nat.ofDigitChars 10 text 0 = n
  small : n < limit

def Numeral (limit : Nat) (text : List Char) (n : Nat) : Prop :=
  Digits limit text n ∨ ∃ digits, text = '+' :: digits ∧ Digits limit digits n

private theorem le_ofDigitChars (digits : List Char) (value : Nat) :
    value ≤ Nat.ofDigitChars 10 digits value := by
  induction digits generalizing value with
  | nil => simp
  | cons c rest ih =>
    rw [Nat.ofDigitChars_cons]
    have hrest := ih (10 * value + (c.toNat - '0'.toNat))
    omega

theorem readDigits_eq_ok_iff {limit value n : Nat} {text : List Char} (h : value < limit) :
    readDigits limit value text = .ok n ↔
      (∀ c ∈ text, c.isDigit = true) ∧ Nat.ofDigitChars 10 text value = n ∧ n < limit := by
  induction text generalizing value with
  | nil =>
    simp only [readDigits, Except.ok.injEq, Nat.ofDigitChars_nil]
    constructor
    · rintro rfl
      exact ⟨by simp, rfl, h⟩
    · exact fun hread => hread.2.1
  | cons c rest ih =>
    have hnext : value * 10 + digitValue c = 10 * value + (c.toNat - '0'.toNat) := by
      rw [digitValue, Nat.mul_comm]
    rw [readDigits, Nat.ofDigitChars_cons, ← hnext]
    by_cases hdigit : c.isDigit = true
    · rw [if_pos hdigit]
      by_cases hsmall : value * 10 + digitValue c < limit
      · simp [hsmall, ih hsmall, hdigit]
      · -- The number only grows with the digits that follow.
        have hlarge := le_ofDigitChars rest (value * 10 + digitValue c)
        simp only [hsmall, if_false, reduceCtorEq, false_iff]
        omega
    · simp [hdigit]

private theorem readDigits_zero_eq_ok_iff {limit n : Nat} {text : List Char} (hlimit : 0 < limit)
    (hne : text ≠ []) : readDigits limit 0 text = .ok n ↔ Digits limit text n := by
  rw [readDigits_eq_ok_iff hlimit]
  constructor
  · rintro ⟨hdigits, hvalue, hsmall⟩
    exact ⟨hne, hdigits, hvalue, hsmall⟩
  · exact fun h => ⟨h.digits, h.value, h.small⟩

private theorem not_digits_plus {limit n : Nat} (rest : List Char) :
    ¬ Digits limit ('+' :: rest) n :=
  fun h => absurd (h.digits '+' (by simp)) (by decide)

theorem readUnsigned_eq_ok_iff {limit n : Nat} {text : List Char} (hlimit : 0 < limit) :
    readUnsigned limit text = .ok n ↔ Numeral limit text n := by
  unfold readUnsigned Numeral
  split
  next =>
    have hnone : ¬ Digits limit [] n := fun h => h.nonempty rfl
    simp [hnone]
  next =>
    have hnone : ¬ Digits limit [] n := fun h => h.nonempty rfl
    simp [not_digits_plus, hnone]
  next digits hsign =>
    have hne : digits ≠ [] := fun h => hsign (by rw [h])
    simp [not_digits_plus, readDigits_zero_eq_ok_iff hlimit hne]
  next hne _ hsign =>
    have hunsigned : ∀ digits, text ≠ '+' :: digits := fun digits h => hsign digits h
    simp [hunsigned, readDigits_zero_eq_ok_iff hlimit hne]

namespace Numeral

variable {limit n : Nat} {text : List Char}

theorem ne_nil (h : Numeral limit text n) : text ≠ [] := by
  rcases h with hdigits | ⟨digits, rfl, -⟩
  · exact hdigits.nonempty
  · simp

theorem lt (h : Numeral limit text n) : n < limit := by
  rcases h with hdigits | ⟨digits, -, hdigits⟩
  · exact hdigits.small
  · exact hdigits.small

theorem isDigit_or_plus (h : Numeral limit text n) {c : Char} (hc : c ∈ text) :
    c.isDigit = true ∨ c = '+' := by
  rcases h with hdigits | ⟨digits, rfl, hdigits⟩
  · exact .inl (hdigits.digits c hc)
  · rcases List.mem_cons.mp hc with rfl | hc
    · exact .inr rfl
    · exact .inl (hdigits.digits c hc)

end Numeral

/-! Blanks around a text. -/

theorem exists_blanks (text : List Char) : ∃ before after, text = before ++ trim text ++ after ∧
    ∀ c ∈ before ++ after, isBlank c = true := by
  have hrest : text.dropWhile isBlank =
      trim text ++ ((text.dropWhile isBlank).reverse.takeWhile isBlank).reverse := by
    rw [trim, ← List.reverse_append, List.takeWhile_append_dropWhile, List.reverse_reverse]
  refine ⟨text.takeWhile isBlank,
    ((text.dropWhile isBlank).reverse.takeWhile isBlank).reverse, ?_, ?_⟩
  · rw [List.append_assoc, ← hrest, List.takeWhile_append_dropWhile]
  · intro c hc
    rcases List.mem_append.mp hc with hbefore | hafter
    · exact List.all_eq_true.mp List.all_takeWhile c hbefore
    · exact List.all_eq_true.mp List.all_takeWhile c (List.mem_reverse.mp hafter)

private theorem dropWhile_isBlank_append {blanks text : List Char}
    (h : ∀ c ∈ blanks, isBlank c = true)
    (hfirst : ∀ c ∈ text.head?, isBlank c = false) : (blanks ++ text).dropWhile isBlank = text := by
  rw [List.dropWhile_append_of_pos h]
  cases text with
  | nil => rfl
  | cons c rest => rw [List.dropWhile_cons_of_neg (by simp [hfirst c rfl])]

theorem trim_between {before text after : List Char} (hne : text ≠ [])
    (hblank : ∀ c ∈ before ++ after, isBlank c = true)
    (hfirst : ∀ c ∈ text.head?, isBlank c = false)
    (hlast : ∀ c ∈ text.getLast?, isBlank c = false) : trim (before ++ text ++ after) = text := by
  have hbefore : ∀ c ∈ before, isBlank c = true := fun c hc => hblank c (by simp [hc])
  have hafter : ∀ c ∈ after.reverse, isBlank c = true := fun c hc =>
    hblank c (List.mem_append_right before (List.mem_reverse.mp hc))
  rw [trim, List.append_assoc, dropWhile_isBlank_append hbefore, List.reverse_append,
    dropWhile_isBlank_append hafter, List.reverse_reverse]
  · simpa using hlast
  · simpa [hne] using hfirst

end ModelHost.Text
