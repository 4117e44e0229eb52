import LinkedJson.Proofs.Grammar.Meaning
import LinkedJson.Proofs.Literal.NumberText

/-!
# What the notations of a number write

The literal of each notation has the magnitude of what was rounded for it: the digits of a natural
number are worth that number (`digitsValue_toDigits`), and seven digits, or six decimals, are worth
their count of units (`magnitude_decimalParts`).
-/

namespace LinkedJson.NumberText

open Ascii NumberLiteral

/-! ## Digits -/

theorem encode_ofList_digits {cs : List Char} (h : ∀ c ∈ cs, c.isDigit = true) :
    Utf8.encode (.ofList cs) = cs.map (·.toNat.toUInt8) := by
  refine Utf8.encode_ofList_of_lt fun c hc => ?_
  have := h c hc
  simp only [Char.isDigit, Bool.and_eq_true, decide_eq_true_eq, UInt32.le_iff_toNat_le] at this
  exact Nat.lt_of_le_of_lt this.2 (by decide)

theorem digitValue_digitChar {d : Nat} : d < 10 → digitValue d.digitChar.toNat.toUInt8 = d := by
  revert d
  decide

/-- The digits of a natural number are worth that number. -/
theorem digitsValue_toDigits (n : Nat) :
    digitsValue (Utf8.encode (.ofList (Nat.toDigits 10 n))) = n := by
  rw [encode_ofList_digits isDigit_of_mem_toDigits]
  induction n using Nat.strongRecOn with
  | ind n ih =>
    by_cases hlt : n < 10
    · rw [Nat.toDigits_of_lt_base hlt]
      simp [digitsValue, digitValue_digitChar hlt]
    · rw [Nat.toDigits_of_base_le (by decide) (Nat.le_of_not_lt hlt), List.map_append,
        digitsValue_append, ih (n / 10) (by omega)]
      simp only [List.map_cons, List.map_nil, List.length_singleton, digitsValue, List.foldl_cons,
        List.foldl_nil, digitValue_digitChar (Nat.mod_lt n (by decide))]
      omega

theorem digitsValue_padded (width n : Nat) :
    digitsValue (Utf8.encode (.ofList (padded width n))) = n := by
  have hzeros : ∀ k, digitsValue (Utf8.encode (.ofList (List.replicate k '0'))) = 0 := by
    intro k
    induction k with
    | zero => rfl
    | succ k ih =>
      rw [List.replicate_succ', Utf8.encode_ofList_append, digitsValue_append, ih]
      rfl
  rw [padded, Utf8.encode_ofList_append, digitsValue_append, hzeros, digitsValue_toDigits]
  omega

theorem length_encode_padded {width n : Nat} (hwidth : 0 < width) (hn : n < 10 ^ width) :
    (Utf8.encode (.ofList (padded width n))).length = width := by
  have hcount : (Nat.toDigits 10 n).length ≤ width :=
    (Nat.length_toDigits_le_iff (by decide) hwidth).2 hn
  rw [encode_ofList_digits isDigit_of_mem_padded, List.length_map, padded, List.length_append,
    List.length_replicate]
  omega

/-! ## Magnitudes -/

theorem magnitude_wholeParts (negative : Bool) (n : Nat) :
    (wholeParts negative n).magnitude = n := by
  have hnil : digitsValue [] = 0 := rfl
  simp [Parts.magnitude, wholeParts, digitsValue_toDigits, hnil]

theorem value_exponentPart (e : Int) : (exponentPart e).value = e := by
  unfold ExponentPart.value exponentPart
  simp only [digitsValue_padded]
  by_cases h : e < 0
  · simp only [if_pos h]
    omega
  · simp only [if_neg h]
    omega

/-- Millionths, with or without an exponent. -/
theorem magnitude_decimalParts (negative : Bool) (n : Nat) (exponent : Option ExponentPart) :
    (decimalParts negative n exponent).magnitude =
      n * 10 ^ ((exponent.map ExponentPart.value).getD 0 - 6) := by
  have hsum : (n : ℚ) = (n / 10 ^ 6 : Nat) * 10 ^ 6 + (n % 10 ^ 6 : Nat) := by
    exact_mod_cast (Nat.div_add_mod' n (10 ^ 6)).symm
  have hlength : (Utf8.encode (.ofList (padded 6 (n % Nat.pow 10 6)))).length = 6 :=
    length_encode_padded (by decide) (Nat.mod_lt n (by decide))
  simp only [Parts.magnitude, decimalParts, Option.getD_some, digitsValue_toDigits,
    digitsValue_padded, hlength, Nat.pow_eq]
  rw [zpow_sub₀ (by norm_num), hsum]
  generalize n / 10 ^ 6 = whole
  generalize n % 10 ^ 6 = millionths
  norm_num
  ring

theorem magnitude_exponentialParts (negative : Bool) (n : Nat) (e : Int) :
    (decimalParts negative n (some (exponentPart e))).magnitude = n * 10 ^ (e - 6) := by
  rw [magnitude_decimalParts, Option.map_some, Option.getD_some, value_exponentPart]

theorem magnitude_millionthParts (negative : Bool) (n : Nat) :
    (decimalParts negative n none).magnitude = n / 10 ^ 6 := by
  rw [magnitude_decimalParts, Option.map_none, Option.getD_none, zero_sub, zpow_neg,
    div_eq_mul_inv]
  rfl

end LinkedJson.NumberText
