import LinkedJson.Proofs.Number.Conditions

/-!
# Numbers of millionths

Six decimals are written by cutting and rounding halves away from zero, and come out as the nearest
number of millionths, a half being rounded to the even neighbour (`FiniteDouble.sixByCutting_eq`).
Halves are the odd multiples of `1 / 128` (`FiniteDouble.millionths_half_iff`): the odd numerator of
a half is divisible by the six fives of a million, and what is left of it counts parts of 128. Seven
decimals write a half exactly, and without the last of them, a five, they are the lower neighbour.
-/

namespace LinkedJson

/-! ## Decimals -/

namespace NumberText

/-- Six decimals. A half goes to the even neighbour. -/
def sixDecimals (num den : Nat) : List Char :=
  decimals 6 (roundDiv .even (num * Nat.pow 10 6) den)

/-- One more digit stands at the end. -/
theorem padded_succ {width d : Nat} (hwidth : 0 < width) (hd : d < 10) (n : Nat) :
    padded (width + 1) (10 * n + d) = padded width n ++ [d.digitChar] := by
  rcases Nat.eq_zero_or_pos n with rfl | hn
  · obtain ⟨k, rfl⟩ := Nat.exists_eq_succ_of_ne_zero hwidth.ne'
    rw [Nat.mul_zero, Nat.zero_add, padded, padded, Nat.toDigits_of_lt_base hd,
      Nat.toDigits_of_lt_base (by decide), List.length_singleton, List.length_singleton,
      Nat.add_sub_cancel, Nat.succ_eq_add_one, Nat.add_sub_cancel, List.replicate_succ']
    rfl
  · rw [padded, padded, ← Nat.toDigits_append_toDigits (by decide) hn hd,
      Nat.toDigits_of_lt_base hd, List.length_append, List.length_singleton,
      Nat.add_sub_add_right, List.append_assoc]

theorem decimals_succ {places d : Nat} (hplaces : 0 < places) (hd : d < 10) (n : Nat) :
    decimals (places + 1) (10 * n + d) = decimals places n ++ [d.digitChar] := by
  have hpow : Nat.pow 10 (places + 1) = 10 * Nat.pow 10 places := Nat.mul_comm _ _
  have hwhole : (10 * n + d) / Nat.pow 10 (places + 1) = n / Nat.pow 10 places := by
    rw [hpow, ← Nat.div_div_eq_div_mul, show (10 * n + d) / 10 = n by omega]
  have hrest : (10 * n + d) % Nat.pow 10 (places + 1) = 10 * (n % Nat.pow 10 places) + d := by
    rw [hpow, Nat.mod_mul, show (10 * n + d) / 10 = n by omega,
      show (10 * n + d) % 10 = d by omega, Nat.add_comm]
  rw [decimals, hwhole, hrest, padded_succ hplaces hd, decimals, List.append_assoc,
    List.cons_append]

/-- The last decimal is the last digit. -/
theorem getLastD_decimals {places : Nat} (hplaces : 1 < places) (n : Nat) (c : Char) :
    (decimals places n).getLastD c = (n % 10).digitChar := by
  obtain ⟨k, rfl⟩ := Nat.exists_eq_succ_of_ne_zero (Nat.ne_zero_of_lt hplaces)
  rw [← Nat.div_add_mod n 10, decimals_succ (by omega) (Nat.mod_lt n (by decide)),
    List.getLastD_concat, Nat.div_add_mod]

theorem digitChar_mod_two {d : Nat} : d < 10 → (d.digitChar.toNat - 0x30) % 2 = d % 2 := by
  revert d
  decide

theorem dropLast_withSign_append (negative : Bool) (cs : List Char) (c : Char) :
    (withSign negative (cs ++ [c])).dropLast = withSign negative cs := by
  cases negative with
  | true =>
    change ('-' :: cs ++ [c]).dropLast = '-' :: cs
    exact List.dropLast_concat
  | false => exact List.dropLast_concat

theorem getLastD_withSign (negative : Bool) {cs : List Char} (h : cs ≠ []) (c : Char) :
    (withSign negative cs).getLastD c = cs.getLastD c := by
  cases negative with
  | true =>
    obtain ⟨b, cs, rfl⟩ := List.exists_cons_of_ne_nil h
    rfl
  | false => rfl

end NumberText

namespace FiniteDouble

open NumberText

variable {x : FiniteDouble}

theorem millionths_div (x : FiniteDouble) :
    ((x.numerator * Nat.pow 10 6 : Nat) : ℚ) / x.denominator = x.magnitude * 10 ^ 6 := by
  rw [numerator_mul_div, Nat.pow_eq, Nat.cast_pow, Nat.cast_ofNat]

/-! ## Halves -/

/-- Halfway between two numbers of millionths are the odd multiples of `1 / 128`. -/
theorem magnitude_half_iff : (∃ n : Nat, x.magnitude * 10 ^ 6 = n + 1 / 2) ↔
    ∃ c : Nat, Odd c ∧ 128 * x.magnitude = c := by
  constructor
  · rintro ⟨n, h⟩
    have hdvd : 5 ^ 6 ∣ 2 * n + 1 := by
      refine five_pow_dvd (b := x.significand) (s := 0) (t := x.exponent + 7) ?_
      rw [magnitude] at h
      rw [zpow_zero, mul_one, zpow_add₀ two_ne_zero]
      push_cast
      linarith
    obtain ⟨c, hc⟩ := hdvd
    have hodd : Odd (5 ^ 6 * c) := hc ▸ odd_two_mul_add_one n
    have hc' : (2 : ℚ) * n + 1 = 5 ^ 6 * c := by exact_mod_cast hc
    refine ⟨c, (Nat.odd_mul.1 hodd).2, ?_⟩
    linarith
  · rintro ⟨c, hodd, h⟩
    obtain ⟨n, hn⟩ := (by decide : Odd (5 ^ 6)).mul hodd
    have hn' : (5 : ℚ) ^ 6 * c = 2 * n + 1 := by exact_mod_cast hn
    refine ⟨n, ?_⟩
    linarith

/-- **Halves are the odd multiples of `1 / 128`.** -/
theorem millionths_half_iff : (∃ n : Nat, x.magnitude * 10 ^ 6 = n + 1 / 2) ↔
    ∃ k : Int, Odd k ∧ 128 * x.toRat = k := by
  rw [magnitude_half_iff]
  constructor
  · rintro ⟨c, hodd, h⟩
    have hodd' : Odd (c : Int) := by exact_mod_cast hodd
    rcases x.toRat_eq_or with hx | hx
    · exact ⟨c, hodd', by rw [hx, h, Int.cast_natCast]⟩
    · exact ⟨-c, hodd'.neg, by rw [hx, mul_neg, h, Int.cast_neg, Int.cast_natCast]⟩
  · rintro ⟨k, hodd, h⟩
    refine ⟨k.natAbs, hodd.natAbs, ?_⟩
    rw [natAbs_cast, ← h, abs_mul, abs_toRat, abs_of_pos (by norm_num : (0 : ℚ) < 128)]

/-! ## Cutting -/

theorem scalesToOdd_iff : x.ScalesToOdd ↔ ∃ k : Int, Odd k ∧ 128 * x.toRat = k := by
  have hpos : (x.denominator : Int) ≠ 0 := by exact_mod_cast x.denominator_pos.ne'
  have hscaled : ∀ k : Int, 128 * x.toRat = k ↔ 128 * x.signedNumerator = k * x.denominator := by
    intro k
    rw [← signedNumerator_div_denominator, ← mul_div_assoc, div_eq_iff x.denominator_cast_pos.ne']
    exact_mod_cast Iff.rfl
  simp only [hscaled]
  constructor
  · rintro ⟨hrest, hodd⟩
    exact ⟨_, Int.odd_iff.2 (by omega), (Int.ediv_mul_cancel (Int.dvd_of_emod_eq_zero hrest)).symm⟩
  · rintro ⟨k, hodd, hk⟩
    rw [Int.odd_iff] at hodd
    rw [ScalesToOdd, hk, Int.mul_emod_left, Int.mul_ediv_cancel _ hpos]
    exact ⟨rfl, by omega⟩

/-- Seven decimals write a half exactly. -/
theorem fixed_seven_of_half {n : Nat} (h : x.magnitude * 10 ^ 6 = n + 1 / 2) :
    x.fixed 7 = withSign x.negative (decimals 6 n ++ ['5']) := by
  have hround : roundDiv .up (x.numerator * Nat.pow 10 7) x.denominator = 10 * n + 5 := by
    refine roundDiv_eq_of_abs_sub_lt .up x.denominator_pos ?_
    have hexact : x.magnitude * (Nat.pow 10 7 : Nat) = (10 * n + 5 : Nat) := by
      rw [Nat.pow_eq]
      push_cast
      linarith
    rw [numerator_mul_div, hexact, sub_self, abs_zero]
    norm_num
  rw [fixed, hround, decimals_succ (by decide) (by decide)]
  rfl

/-- **Cutting rounds to even.** -/
theorem sixByCutting_eq (x : FiniteDouble) :
    x.sixByCutting = withSign x.negative (sixDecimals x.numerator x.denominator) := by
  have hmillionths := x.millionths_div
  rw [sixDecimals, sixByCutting]
  by_cases hhalf : ∃ n : Nat, x.magnitude * 10 ^ 6 = n + 1 / 2
  · rw [if_pos (scalesToOdd_iff.2 (millionths_half_iff.1 hhalf))]
    obtain ⟨n, h⟩ := hhalf
    obtain ⟨hup, heven⟩ := roundDiv_of_half x.denominator_pos (hmillionths.trans h)
    have hcut : (x.fixed 7).dropLast = withSign x.negative (decimals 6 n) := by
      rw [fixed_seven_of_half h, dropLast_withSign_append]
    have hne : decimals 6 n ≠ [] := List.append_ne_nil_of_left_ne_nil Nat.toDigits_ne_nil _
    have hlast : (((x.fixed 7).dropLast.getLastD '0').toNat - 0x30) % 2 = n % 2 := by
      rw [hcut, getLastD_withSign _ hne, getLastD_decimals (by decide),
        digitChar_mod_two (Nat.mod_lt n (by decide)), Nat.mod_mod_of_dvd n (by decide)]
    dsimp only
    rw [hlast, hcut, heven]
    split
    · rfl
    · rw [fixed, hup]
  · rw [if_neg fun hodd => hhalf (millionths_half_iff.2 (scalesToOdd_iff.1 hodd)), fixed,
      roundDiv_congr .up .even x.denominator_pos fun n h => hhalf ⟨n, hmillionths ▸ h⟩]

end FiniteDouble

end LinkedJson
