import LinkedJson.Proofs.Number.Quotients

/-!
# Seven digits

`sevenDigits` counts units of the last of seven digits (`exists_units`). So its number is a nearest
one of seven digits (`sevenDigits_spec`), it is off by no more than half a millionth of what is
written (`abs_sevenDigits_sub_le`), and whatever is near a number of seven digits is written by them
(`sevenDigits_eq`).

Away from the halves between neighbours (`IsSevenDigitHalf`) every other number of seven digits is
farther away (`sevenDigits_nearest`), and no rule for halves is ever asked (`sevenDigitsBy_eq`).
-/

namespace LinkedJson.NumberText

variable {num den n : Nat} {e : Int}

/-! ## Units of the last digit -/

/-- A power of ten in units of the last of seven digits. -/
theorem ten_zpow_eq (e : Int) : (10 : ℚ) ^ e = 10 ^ 6 * 10 ^ (e - 6) := by
  rw [← zpow_natCast (10 : ℚ) 6, ← zpow_add₀ (by norm_num)]
  congr 1
  omega

theorem ten_zpow_add_one_eq (e : Int) : (10 : ℚ) ^ (e + 1) = 10 ^ 7 * 10 ^ (e - 6) := by
  rw [zpow_add_one₀ (by norm_num), ten_zpow_eq]
  ring

/-- The unit of the last digit for an exponent that is greater by one. -/
theorem ten_zpow_add_one_sub (e : Int) : (10 : ℚ) ^ (e + 1 - 6) = 10 * 10 ^ (e - 6) := by
  rw [add_sub_right_comm, zpow_add_one₀ (by norm_num), mul_comm]

/-- The distance to a number of units, in units. -/
theorem abs_mul_sub (x : ℚ) (n : Nat) {u : ℚ} (hu : 0 < u) : |n * u - x| = |n - x / u| * u := by
  rw [← abs_of_pos hu, ← abs_mul, abs_of_pos hu, sub_mul, div_mul_cancel₀ _ hu.ne']

/-- Seven digits and the exponent of the first. A carry out of them raises the exponent. -/
def carried (n : Nat) (e : Int) : Nat × Int :=
  if n = 10 ^ 7 then (10 ^ 6, e + 1) else (n, e)

theorem carried_bounds {n₀ : Nat} {e₀ : Int} (hlower : 10 ^ 6 ≤ n₀) (hupper : n₀ ≤ 10 ^ 7)
    (h : carried n₀ e₀ = (n, e)) :
    10 ^ 6 ≤ n ∧ n < 10 ^ 7 ∧ (n : ℚ) * 10 ^ (e - 6) = n₀ * 10 ^ (e₀ - 6) := by
  unfold carried at h
  split at h
  · rename_i hcarry
    cases h
    refine ⟨Nat.le_refl _, by decide, ?_⟩
    rw [ten_zpow_add_one_sub, hcarry]
    push_cast
    ring
  · rename_i hcarry
    cases h
    exact ⟨hlower, lt_of_le_of_ne hupper hcarry, rfl⟩

/-- The seven digits nearest to `num / den` under a rule for halves, and the exponent of the
first. -/
def sevenDigitsBy (tie : Tie) (num den : Nat) : Nat × Int :=
  let e := floorLog10 num den
  carried (roundDiv tie (num * Nat.pow 10 (6 - e).toNat) (den * Nat.pow 10 (e - 6).toNat)) e

theorem sevenDigitsBy_up (num den : Nat) : sevenDigitsBy .up num den = sevenDigits num den :=
  rfl

/-- Seven digits count the units of the last digit. -/
theorem exists_units (hnum : 0 < num) (hden : 0 < den) : ∃ scaled unit : Nat, 0 < unit ∧
    (scaled : ℚ) / unit = num / den / 10 ^ (floorLog10 num den - 6) ∧
    (10 : ℚ) ^ 6 ≤ scaled / unit ∧ (scaled : ℚ) / unit < 10 ^ 7 ∧
    ∀ tie, sevenDigitsBy tie num den = carried (roundDiv tie scaled unit) (floorLog10 num den) := by
  obtain ⟨hlower, hupper⟩ := floorLog10_bounds hnum hden
  have hscaled := cast_scaled_div num den (b := 10) (by decide) (floorLog10 num den - 6)
  rw [neg_sub] at hscaled
  have hu : (0 : ℚ) < 10 ^ (floorLog10 num den - 6) := by positivity
  refine ⟨num * Nat.pow 10 (6 - floorLog10 num den).toNat,
    den * Nat.pow 10 (floorLog10 num den - 6).toNat,
    Nat.mul_pos hden (Nat.pow_pos (by decide)), hscaled, ?_, ?_, fun tie => rfl⟩
  · rw [hscaled]
    exact (le_div_iff₀ hu).2 ((ten_zpow_eq _).symm.trans_le hlower)
  · rw [hscaled]
    exact (div_lt_iff₀ hu).2 (hupper.trans_eq (ten_zpow_add_one_eq _))

/-- The number of seven digits is a nearest whole number of units. -/
theorem exists_sevenDigitsBy_eq (hnum : 0 < num) (hden : 0 < den) (tie : Tie) :
    ∃ n₀ : Nat, sevenDigitsBy tie num den = carried n₀ (floorLog10 num den) ∧ 10 ^ 6 ≤ n₀ ∧
      n₀ ≤ 10 ^ 7 ∧
      |(n₀ : ℚ) * 10 ^ (floorLog10 num den - 6) - num / den| ≤
        1 / 2 * 10 ^ (floorLog10 num den - 6) := by
  obtain ⟨scaled, unit, hunit, hscaled, hlower, hupper, hdigits⟩ := exists_units hnum hden
  refine ⟨_, hdigits tie, le_roundDiv tie hunit (by exact_mod_cast hlower),
    roundDiv_le tie hunit (by exact_mod_cast hupper.le), ?_⟩
  have herror := abs_roundDiv_sub_le tie scaled hunit
  rw [hscaled] at herror
  rw [abs_mul_sub _ _ (by positivity)]
  exact mul_le_mul_of_nonneg_right herror (by positivity)

/-! ## How near seven digits are -/

/-- A number of seven digits is the nearest one, and its exponent is that of the quotient, unless
the quotient is rounded up to a power of ten. -/
theorem sevenDigits_spec (hnum : 0 < num) (hden : 0 < den) (h : sevenDigits num den = (n, e)) :
    10 ^ 6 ≤ n ∧ n < 10 ^ 7 ∧
      |(n : ℚ) * 10 ^ (e - 6) - num / den| ≤ 1 / 2 * 10 ^ (e - 6) ∧
      ((10 ^ e ≤ (num : ℚ) / den ∧ (num : ℚ) / den < 10 ^ (e + 1)) ∨
        (n = 10 ^ 6 ∧ 10 ^ (e - 1) ≤ (num : ℚ) / den ∧ (num : ℚ) / den < 10 ^ e)) := by
  obtain ⟨hlower, hupper⟩ := floorLog10_bounds hnum hden
  obtain ⟨n₀, hdigits, hn_lower, hn_upper, herror⟩ := exists_sevenDigitsBy_eq hnum hden .up
  rw [sevenDigitsBy_up, h] at hdigits
  obtain ⟨hlower', hupper', hvalue⟩ := carried_bounds hn_lower hn_upper hdigits.symm
  generalize floorLog10 num den = e₀ at *
  have hu : (0 : ℚ) < 10 ^ (e₀ - 6) := by positivity
  refine ⟨hlower', hupper', ?_, ?_⟩
  · rw [hvalue]
    refine herror.trans (mul_le_mul_of_nonneg_left ?_ (by norm_num))
    unfold carried at hdigits
    split at hdigits
    · cases hdigits
      rw [ten_zpow_add_one_sub]
      linarith
    · cases hdigits
      exact le_rfl
  · unfold carried at hdigits
    split at hdigits
    · cases hdigits
      exact .inr ⟨rfl, by rwa [add_sub_cancel_right], hupper⟩
    · cases hdigits
      exact .inl ⟨hlower, hupper⟩

/-- Seven digits are off by no more than half a millionth of what is written. -/
theorem abs_sevenDigits_sub_le (hnum : 0 < num) (hden : 0 < den)
    (h : sevenDigits num den = (n, e)) :
    |(n : ℚ) * 10 ^ (e - 6) - num / den| ≤ 5 / 10 ^ 7 * (num / den) := by
  have hlower := (floorLog10_bounds hnum hden).1
  obtain ⟨n₀, hdigits, hn_lower, hn_upper, herror⟩ := exists_sevenDigitsBy_eq hnum hden .up
  rw [sevenDigitsBy_up, h] at hdigits
  rw [(carried_bounds hn_lower hn_upper hdigits.symm).2.2]
  rw [ten_zpow_eq] at hlower
  linarith

/-- What is near a number of seven digits is written by them. -/
theorem sevenDigits_eq (hden : 0 < den) (hn_lower : 10 ^ 6 ≤ n) (hn_upper : n < 10 ^ 7)
    (h : |(num : ℚ) / den - n * 10 ^ (e - 6)| < 1 / 20 * 10 ^ (e - 6)) :
    sevenDigits num den = (n, e) := by
  have hu : (0 : ℚ) < 10 ^ (e - 6) := by positivity
  have hn_lower' : (10 : ℚ) ^ 6 ≤ n := by exact_mod_cast hn_lower
  have hn_upper' : (n : ℚ) + 1 ≤ 10 ^ 7 := by exact_mod_cast hn_upper
  obtain ⟨habove, hbelow⟩ := abs_lt.1 h
  have hx_lower : (10 ^ 6 - 1 / 20) * (10 : ℚ) ^ (e - 6) < num / den := by
    have := mul_le_mul_of_nonneg_right hn_lower' hu.le
    linarith
  have hx_upper : (num : ℚ) / den < (10 ^ 7 - 19 / 20) * 10 ^ (e - 6) := by
    have := mul_le_mul_of_nonneg_right hn_upper' hu.le
    linarith
  have hden' : (0 : ℚ) < den := by exact_mod_cast hden
  have hnum : 0 < num := by
    have : (0 : ℚ) < num / den := lt_trans (mul_pos (by norm_num) hu) hx_lower
    exact_mod_cast (div_pos_iff_of_pos_right hden').1 this
  obtain ⟨hlower, hupper⟩ := floorLog10_bounds hnum hden
  obtain ⟨scaled, unit, hunit, hscaled, -, -, hdigits⟩ := exists_units hnum hden
  have hround : ∀ m : Nat, |(num : ℚ) / den - m * 10 ^ (floorLog10 num den - 6)| <
      1 / 2 * 10 ^ (floorLog10 num den - 6) → roundDiv .up scaled unit = m := by
    intro m hm
    have hw : (0 : ℚ) < 10 ^ (floorLog10 num den - 6) := by positivity
    refine roundDiv_eq_of_abs_sub_lt .up hunit ?_
    rwa [abs_sub_comm, abs_mul_sub _ _ hw, ← hscaled, mul_lt_mul_iff_of_pos_right hw] at hm
  rw [← sevenDigitsBy_up, hdigits, carried]
  generalize floorLog10 num den = e₀ at *
  generalize (num : ℚ) / den = x at *
  have hle : e₀ < e + 1 := by
    refine (zpow_lt_zpow_iff_right₀ (by norm_num : (1 : ℚ) < 10)).1
      (hlower.trans_lt (hx_upper.trans ?_))
    rw [ten_zpow_add_one_eq]
    exact mul_lt_mul_of_pos_right (by norm_num) hu
  have hge : e - 1 < e₀ + 1 := by
    refine (zpow_lt_zpow_iff_right₀ (by norm_num : (1 : ℚ) < 10)).1
      (lt_trans ?_ (hx_lower.trans hupper))
    rw [show e - 1 = 5 + (e - 6) by omega, zpow_add₀ (by norm_num)]
    exact mul_lt_mul_of_pos_right (by norm_num) hu
  obtain rfl | rfl : e₀ = e ∨ e = e₀ + 1 := by omega
  · rw [hround n (h.trans (by linarith)), if_neg hn_upper.ne]
  · -- the quotient is just below the power of ten, so one more digit is rounded up to it
    obtain rfl : n = 10 ^ 6 := by
      rw [ten_zpow_eq] at hupper
      have : (n : ℚ) < 10 ^ 6 + 1 := by
        refine lt_of_mul_lt_mul_right (a := (10 : ℚ) ^ (e₀ + 1 - 6)) ?_ hu.le
        linarith
      have : n < 10 ^ 6 + 1 := by exact_mod_cast this
      omega
    have hcarry := hround (10 ^ 7) (by
      rw [ten_zpow_add_one_sub] at h
      push_cast at h ⊢
      refine lt_of_eq_of_lt ?_ (h.trans_eq (by ring))
      congr 1
      ring)
    rw [hcarry, if_pos rfl]

/-! ## Away from the halves -/

/-- A number of seven significant digits. -/
def IsSevenDigits (v : ℚ) : Prop :=
  ∃ (n : Nat) (e : Int), 10 ^ 6 ≤ n ∧ n < 10 ^ 7 ∧ v = n * 10 ^ (e - 6)

/-- A number halfway between two neighbours of seven significant digits. -/
def IsSevenDigitHalf (v : ℚ) : Prop :=
  ∃ (n : Nat) (e : Int), 10 ^ 6 ≤ n ∧ n < 10 ^ 7 ∧ v = (n + 1 / 2) * 10 ^ (e - 6)

/-- Off the halves, the count of units is not halfway between two whole numbers. -/
theorem ne_half_of_units {scaled unit : Nat} (h : ¬ IsSevenDigitHalf (num / den))
    (hscaled : (scaled : ℚ) / unit = num / den / 10 ^ (e - 6))
    (hlower : (10 : ℚ) ^ 6 ≤ scaled / unit) (hupper : (scaled : ℚ) / unit < 10 ^ 7) (m : Nat) :
    (scaled : ℚ) / unit ≠ m + 1 / 2 := by
  intro hm
  rw [hm] at hlower hupper
  refine h ⟨m, e, ?_, ?_, ?_⟩
  · have : (10 : ℚ) ^ 6 < m + 1 := by linarith
    exact Nat.lt_succ_iff.1 (by exact_mod_cast this)
  · have : (m : ℚ) < 10 ^ 7 := by linarith
    exact_mod_cast this
  · rw [← hm, hscaled, div_mul_cancel₀ _ (by positivity)]

/-- **Off the halves, the rule for halves does not matter.** -/
theorem sevenDigitsBy_eq (hnum : 0 < num) (hden : 0 < den)
    (h : ¬ IsSevenDigitHalf (num / den)) (tie : Tie) :
    sevenDigitsBy tie num den = sevenDigits num den := by
  obtain ⟨scaled, unit, hunit, hscaled, hlower, hupper, hdigits⟩ := exists_units hnum hden
  rw [← sevenDigitsBy_up, hdigits, hdigits,
    roundDiv_congr tie .up hunit (ne_half_of_units h hscaled hlower hupper)]

/-- A number of seven digits is a whole number of units of any number with as few digits in front,
or below the power of ten of that number. -/
theorem IsSevenDigits.cases {v : ℚ} (h : IsSevenDigits v) (e₀ : Int) :
    (∃ k : Nat, v = k * 10 ^ (e₀ - 6)) ∨ v < 10 ^ 6 * 10 ^ (e₀ - 6) := by
  obtain ⟨n, e, -, hn, rfl⟩ := h
  rcases le_or_gt e₀ e with hle | hlt
  · left
    obtain ⟨k, hk⟩ : ∃ k : Nat, e - 6 = k + (e₀ - 6) := ⟨(e - e₀).toNat, by omega⟩
    refine ⟨n * 10 ^ k, ?_⟩
    rw [hk, zpow_add₀ (by norm_num), zpow_natCast]
    push_cast
    ring
  · right
    have hn' : (n : ℚ) < 10 ^ 7 := by exact_mod_cast hn
    calc (n : ℚ) * 10 ^ (e - 6) < 10 ^ 7 * 10 ^ (e - 6) := by gcongr
      _ = 10 ^ (e + 1) := (ten_zpow_add_one_eq e).symm
      _ ≤ 10 ^ e₀ := zpow_le_zpow_right₀ (by norm_num) (by omega)
      _ = 10 ^ 6 * 10 ^ (e₀ - 6) := ten_zpow_eq e₀

/-- **Off the halves, every other number of seven digits is farther away.** -/
theorem sevenDigits_nearest (hnum : 0 < num) (hden : 0 < den)
    (h : ¬ IsSevenDigitHalf (num / den)) (hdigits : sevenDigits num den = (n, e)) {v : ℚ}
    (hv : IsSevenDigits v) (hne : v ≠ n * 10 ^ (e - 6)) :
    |(n : ℚ) * 10 ^ (e - 6) - num / den| < |v - num / den| := by
  obtain ⟨scaled, unit, hunit, hscaled, hlower, hupper, hcarried⟩ := exists_units hnum hden
  have hhalf := ne_half_of_units h hscaled hlower hupper
  have herror := abs_roundDiv_sub_lt .up hunit hhalf
  have hn_lower := le_roundDiv .up hunit (n := 10 ^ 6) (by exact_mod_cast hlower)
  have hn_upper := roundDiv_le .up hunit (n := 10 ^ 7) (by exact_mod_cast hupper.le)
  rw [← sevenDigitsBy_up, hcarried] at hdigits
  rw [(carried_bounds hn_lower hn_upper hdigits).2.2] at hne ⊢
  generalize roundDiv .up scaled unit = n₀ at *
  generalize floorLog10 num den = e₀ at *
  have hu : (0 : ℚ) < 10 ^ (e₀ - 6) := by positivity
  rw [hscaled] at herror hlower
  -- another whole number of units is more than half a unit away
  have hother : ∀ k : Nat, k ≠ n₀ →
      |(n₀ : ℚ) * 10 ^ (e₀ - 6) - num / den| < |(k : ℚ) * 10 ^ (e₀ - 6) - num / den| := by
    intro k hk
    have hfar : 1 / 2 ≤ |((k : Int) : ℚ) - num / den / 10 ^ (e₀ - 6)| :=
      half_le_abs_sub herror.le (by exact_mod_cast hk)
    rw [abs_mul_sub _ _ hu, abs_mul_sub _ _ hu]
    exact mul_lt_mul_of_pos_right (herror.trans_le hfar) hu
  rcases hv.cases e₀ with ⟨k, rfl⟩ | hlt
  · exact hother k fun hk => hne (by rw [hk])
  · -- what has fewer digits in front is farther away than the power of ten
    rw [le_div_iff₀ hu] at hlower
    have hpower : |(n₀ : ℚ) * 10 ^ (e₀ - 6) - num / den| ≤
        |((10 ^ 6 : Nat) : ℚ) * 10 ^ (e₀ - 6) - num / den| := by
      by_cases hn₀ : 10 ^ 6 = n₀
      · rw [hn₀]
      · exact (hother _ hn₀).le
    refine hpower.trans_lt ?_
    push_cast
    rw [abs_of_nonpos (by linarith), abs_of_neg (by linarith)]
    linarith

end LinkedJson.NumberText
