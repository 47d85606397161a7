import Mathlib.Data.List.Basic
import TieredMemory.Toml.Scalar

/-!
# Reading written numbers back

A number is written as its decimal digits, at the end of a line. Nothing else that a number may be
starts that way: a date or a time goes on with its mark after some digits, and a number with a
fraction or an exponent with a point or a letter.
-/
set_option autoImplicit false

namespace TieredMemory.Toml

variable {c d : Char} {n : Nat} {ds rest : List Char}

/-! ## Digits -/

/-- The digits of a number: only `0` itself starts with `0`. -/
structure IsNumeral (ds : List Char) : Prop where
  digits : ∀ c ∈ ds, c.isDigit = true
  ne_nil : ds ≠ []
  leading : ds.head? = some '0' → ds = ['0']

theorem IsNumeral.exists_digit (h : IsNumeral ds) :
    ∃ d t, ds = d :: t ∧ d.isDigit = true := by
  obtain ⟨d, t, rfl⟩ := List.exists_cons_of_ne_nil h.ne_nil
  exact ⟨d, t, rfl, h.digits d List.mem_cons_self⟩

theorem isNumeral_toDigits (n : Nat) : IsNumeral (Nat.toDigits 10 n) where
  digits c hc := Nat.isDigit_of_mem_toDigits (by decide) (by decide) hc
  ne_nil := Nat.toDigits_ne_nil
  leading := by
    induction n using Nat.base_induction 10 (by decide) with
    | single m hm =>
      rw [Nat.toDigits_of_lt_base hm]
      intro h
      rw [List.head?_cons, Option.some.injEq] at h
      rw [h]
    | digit m k hk hm ih =>
      obtain ⟨d, ds, hds⟩ := List.exists_cons_of_ne_nil (Nat.toDigits_ne_nil (n := m) (b := 10))
      intro h
      rw [← Nat.toDigits_append_toDigits (by decide) hm hk, hds, List.cons_append] at h
      have hzero : Nat.ofDigitChars 10 (Nat.toDigits 10 m) 0 = 0 := by
        rw [ih (by rw [hds]; exact h)]
        rfl
      rw [Nat.ofDigitChars_ten_toDigits] at hzero
      omega

theorem digitsValue_eq_ofDigitChars (h : ∀ c ∈ ds, c.isDigit = true) :
    digitsValue 10 ds = Nat.ofDigitChars 10 ds 0 := by
  rw [digitsValue, Nat.ofDigitChars_eq_foldl]
  refine List.foldl_ext _ _ _ fun m c hc => ?_
  rw [digitValue, if_pos (h c hc), Nat.mul_comm]

theorem digitsValue_toDigits (n : Nat) : digitsValue 10 (Nat.toDigits 10 n) = n := by
  rw [digitsValue_eq_ofDigitChars (isNumeral_toDigits n).digits, Nat.ofDigitChars_ten_toDigits]

theorem readMoreDigits_line (h : ∀ c ∈ ds, c.isDigit = true) :
    readMoreDigits Char.isDigit (ds ++ '\n' :: rest) = some (ds, '\n' :: rest) := by
  induction ds with
  | nil => rfl
  | cons d ds ih =>
    have hd := h d List.mem_cons_self
    have hrest := ih fun c hc => h c (List.mem_cons_of_mem _ hc)
    rw [List.cons_append]
    unfold readMoreDigits
    split <;> simp_all

theorem readSign_digit (h : d.isDigit = true) : readSign (d :: rest) = (false, d :: rest) := by
  unfold readSign
  split <;> simp_all

theorem readDecimal_line (h : IsNumeral ds) :
    readDecimal (ds ++ '\n' :: rest) = some (false, ds, '\n' :: rest) := by
  obtain ⟨d, ds, rfl, hd⟩ := h.exists_digit
  have hread : readMoreDigits Char.isDigit (ds ++ '\n' :: rest) = some (ds, '\n' :: rest) :=
    readMoreDigits_line fun c hc => h.digits c (List.mem_cons_of_mem _ hc)
  unfold readDecimal
  rw [List.cons_append, readSign_digit hd]
  by_cases h0 : d = '0'
  · subst h0
    obtain rfl : ds = [] := by simpa using h.leading rfl
    rfl
  · split
    · simp_all
    · next heq =>
      cases heq
      simp [readDigits, hd, hread]

/-! ## Nothing else starts with them -/

theorem readFraction_line : readFraction ('\n' :: rest) = some ([], '\n' :: rest) := rfl

theorem readExponent_line : readExponent ('\n' :: rest) = some (none, '\n' :: rest) := rfl

theorem readFloat_line (h : IsNumeral ds) : readFloat (ds ++ '\n' :: rest) = none := by
  have hdecimal : readDecimalFloat (ds ++ '\n' :: rest) = none := by
    simp [readDecimalFloat, readDecimal_line h, readFraction_line, readExponent_line]
  have hspecial : readSpecialFloat (ds ++ '\n' :: rest) = none := by
    obtain ⟨d, ds, rfl, hd⟩ := h.exists_digit
    unfold readSpecialFloat
    rw [List.cons_append, readSign_digit hd]
    split <;> simp_all
  rw [readFloat, hdecimal, hspecial, Option.none_or]

/-- Digits of a fixed number are read within the line. -/
theorem readField_line {width low high value : Nat} {after : List Char}
    (h : readField width low high (ds ++ '\n' :: rest) = some (value, after)) :
    after = ds.drop width ++ '\n' :: rest := by
  unfold readField at h
  simp only [Option.ite_none_right_eq_some, Option.some.injEq, Prod.mk.injEq] at h
  obtain ⟨⟨hlen, hdigits, _⟩, _, rfl⟩ := h
  have hle : width ≤ ds.length := by
    by_contra hlt
    obtain ⟨k, hk⟩ : ∃ k, width - ds.length = k + 1 := ⟨width - ds.length - 1, by omega⟩
    have hmem : '\n' ∈ (ds ++ '\n' :: rest).take width := by
      rw [List.take_append, hk, List.take_succ_cons]
      exact List.mem_append_right _ List.mem_cons_self
    have := List.all_eq_true.mp hdigits _ hmem
    simp at this
  rw [List.drop_append_of_le_length hle]

theorem expect_line (h : ∀ c ∈ ds, c ≠ d) (hd : d ≠ '\n') :
    expect d (ds ++ '\n' :: rest) = none := by
  cases ds with
  | nil => simp [expect, hd.symm]
  | cons c ds => simp [expect, h c List.mem_cons_self]

theorem readMoment_line (h : ∀ c ∈ ds, c.isDigit = true) :
    readMoment (ds ++ '\n' :: rest) = none := by
  have hno : ∀ d, d.isDigit = false → d ≠ '\n' → ∀ k,
      expect d (ds.drop k ++ '\n' :: rest) = none := fun d hd hn k =>
    expect_line (fun c hc heq => by simp [← heq, h c (List.mem_of_mem_drop hc)] at hd) hn
  have hdate : readDate (ds ++ '\n' :: rest) = none := by
    unfold readDate
    cases hf : readField 4 0 9999 (ds ++ '\n' :: rest) with
    | none => rfl
    | some found =>
      obtain ⟨year, after⟩ := found
      simp [readField_line hf, hno '-' rfl (by decide)]
  have htime : readTime (ds ++ '\n' :: rest) = none := by
    unfold readTime
    cases hf : readField 2 0 23 (ds ++ '\n' :: rest) with
    | none => rfl
    | some found =>
      obtain ⟨hour, after⟩ := found
      simp [readField_line hf, hno ':' rfl (by decide)]
  simp [readMoment, hdate, htime]

/-! ## Integers -/

/-- A numeral does not go on after a leading `0`. -/
theorem eq_of_leading_zero {after : List Char} (h : IsNumeral ds)
    (heq : ds ++ '\n' :: rest = '0' :: c :: after) : c = '\n' := by
  obtain ⟨d, ds, rfl⟩ := List.exists_cons_of_ne_nil h.ne_nil
  rw [List.cons_append, List.cons.injEq] at heq
  obtain ⟨rfl, heq⟩ := heq
  obtain rfl : ds = [] := by simpa using h.leading rfl
  rw [List.nil_append, List.cons.injEq] at heq
  exact heq.1.symm

theorem readInteger_line (h : IsNumeral ds) (hn : digitsValue 10 ds < integerBound) :
    readInteger (ds ++ '\n' :: rest) = some ((digitsValue 10 ds : Int), '\n' :: rest) := by
  unfold readInteger
  split
  · next heq => exact absurd (eq_of_leading_zero h heq) (by decide)
  · next heq => exact absurd (eq_of_leading_zero h heq) (by decide)
  · next heq => exact absurd (eq_of_leading_zero h heq) (by decide)
  · simp [readDecimal_line h, signed64?, hn]

/-- A number below the bound is read back from its digits. -/
theorem readNumber_toDigits (h : n < integerBound) :
    readNumber (Nat.toDigits 10 n ++ '\n' :: rest) = some (.integer n, '\n' :: rest) := by
  have hnum := isNumeral_toDigits n
  have hvalue := digitsValue_toDigits n
  rw [readNumber, readMoment_line hnum.digits]
  simp [readFloat_line hnum, readInteger_line hnum (hvalue.symm ▸ h), hvalue]

end TieredMemory.Toml
