import LinkedJson.Proofs.Number.Nearest

/-!
# Where each notation of a number is used

The conditions under which `FiniteDouble.text` takes a notation, stated about the rational number
that a double is (`toRat`): how far it is from a whole number, and where it lies between
`wholeLimit`, `millionth` and `10 ^ 9`. Rounding the distance to a whole number before it is compared
would make no difference (`magnitude_le_bit_iff`). The integer beside a double that is whole and
within 32 bits is that whole number (`toInt32_eq`).
-/

namespace LinkedJson

/-! ## Doubles of given magnitudes -/

theorem Double.Rounds.exists_finite {negative : Bool} {v : ℚ} {d : Double}
    (h : Double.Rounds negative v d) (hv : v < Double.overflow) :
    ∃ y : FiniteDouble, d = .finite y ∧ y.negative = negative ∧ y.IsNearest v := by
  cases d with
  | nan => exact h.elim
  | infinite sign => exact absurd hv (not_lt.2 h.1)
  | finite y => exact ⟨y, rfl, h.2⟩

namespace FiniteDouble

variable {x y : FiniteDouble}

theorem magnitude_lt_overflow (x : FiniteDouble) : x.magnitude < Double.overflow := by
  obtain ⟨hbits, -, hexponent, -⟩ := canonical_iff.1 x.canonical
  have hle : (x.significand : ℚ) ≤ 2 ^ 53 - 1 := by
    rw [le_sub_iff_add_le]
    exact_mod_cast hbits
  rw [Double.overflow_eq, magnitude]
  calc (x.significand : ℚ) * 2 ^ x.exponent ≤ (2 ^ 53 - 1) * 2 ^ (971 : Int) :=
        mul_le_mul hle (zpow_le_zpow_right₀ one_le_two hexponent) (by positivity) (by norm_num)
    _ < _ := mul_lt_mul_of_pos_right (by norm_num) (by positivity)

/-- Naturals of 53 bits are doubles. -/
theorem exists_magnitude_eq_natCast {n : Nat} (h : n < 2 ^ 53) :
    ∃ z : FiniteDouble, z.magnitude = n := by
  rcases Nat.eq_zero_or_pos n with rfl | hpos
  · exact ⟨zero false, by simp [magnitude, zero]⟩
  · have hlog : n.log2 ≤ 52 := Nat.lt_succ_iff.1 ((Nat.log2_lt hpos.ne').2 h)
    have hlower : 2 ^ n.log2 ≤ n := Nat.log2_self_le hpos.ne'
    have hupper : n < 2 ^ (n.log2 + 1) := Nat.lt_log2_self
    obtain ⟨k, hk⟩ : ∃ k, n.log2 + k = 52 := ⟨52 - n.log2, by omega⟩
    have hbits : n * 2 ^ k < 2 ^ 53 := by
      calc n * 2 ^ k < 2 ^ (n.log2 + 1) * 2 ^ k := Nat.mul_lt_mul_of_pos_right hupper (by positivity)
        _ = 2 ^ 53 := by rw [← pow_add]; congr 1; omega
    have hfull : 2 ^ 52 ≤ n * 2 ^ k := by
      calc 2 ^ 52 = 2 ^ n.log2 * 2 ^ k := by rw [← pow_add, hk]
        _ ≤ n * 2 ^ k := Nat.mul_le_mul_right _ hlower
    refine ⟨⟨false, n * 2 ^ k, -k, canonical_iff.2 (by omega)⟩, ?_⟩
    simp only [magnitude]
    push_cast
    rw [mul_assoc, ← zpow_natCast, ← zpow_add₀ two_ne_zero, add_neg_cancel, zpow_zero, mul_one]

/-! ## Doubles as rational numbers -/

/-- The double with its sign as a rational number. -/
def toRat (x : FiniteDouble) : ℚ :=
  if x.negative then -x.magnitude else x.magnitude

theorem toRat_eq_or (x : FiniteDouble) : x.toRat = x.magnitude ∨ x.toRat = -x.magnitude := by
  unfold toRat
  split
  · exact .inr rfl
  · exact .inl rfl

theorem exists_toRat_eq_of_magnitude_eq {k : Nat} (h : x.magnitude = k) :
    ∃ j : Int, x.toRat = j := by
  rcases x.toRat_eq_or with hx | hx
  · exact ⟨k, by rw [hx, h, Int.cast_natCast]⟩
  · exact ⟨-k, by rw [hx, h, Int.cast_neg, Int.cast_natCast]⟩

theorem natAbs_cast (k : Int) : ((k.natAbs : Nat) : ℚ) = |(k : ℚ)| := by
  rw [Nat.cast_natAbs, Int.cast_abs]

theorem abs_toRat (x : FiniteDouble) : |x.toRat| = x.magnitude := by
  unfold toRat
  split
  · rw [abs_neg, abs_of_nonneg x.magnitude_nonneg]
  · rw [abs_of_nonneg x.magnitude_nonneg]

theorem denominator_cast_pos (x : FiniteDouble) : (0 : ℚ) < x.denominator := by
  exact_mod_cast x.denominator_pos

theorem signedNumerator_div_denominator (x : FiniteDouble) :
    (x.signedNumerator : ℚ) / x.denominator = x.toRat := by
  rw [toRat, ← numerator_div_denominator, signedNumerator, signed]
  split
  · rw [Int.cast_neg, Int.cast_natCast, neg_div]
  · rw [Int.cast_natCast]

theorem signedNumerator_eq (x : FiniteDouble) :
    (x.signedNumerator : ℚ) = x.toRat * x.denominator := by
  rw [← signedNumerator_div_denominator, div_mul_cancel₀ _ x.denominator_cast_pos.ne']

theorem numerator_eq (x : FiniteDouble) : (x.numerator : ℚ) = x.magnitude * x.denominator := by
  rw [← numerator_div_denominator, div_mul_cancel₀ _ x.denominator_cast_pos.ne']

theorem numerator_mul_div (x : FiniteDouble) (k : Nat) :
    ((x.numerator * k : Nat) : ℚ) / x.denominator = x.magnitude * k := by
  rw [Nat.cast_mul, mul_div_right_comm, numerator_div_denominator]

/-! ## The conditions of the notations -/

theorem agreesWith_iff {i : Int} : x.AgreesWith i ↔
    |(i : ℚ) - x.toRat| ≤ 1 / 2 ^ 52 ∧ (leastInt32 : ℚ) ≤ x.toRat ∧ x.toRat ≤ greatestInt32 := by
  have hden := x.denominator_cast_pos
  unfold AgreesWith
  refine and_congr ?_ (and_congr ?_ ?_)
  · rw [← Nat.cast_le (α := ℚ), Nat.cast_mul, Nat.cast_natAbs, Int.cast_abs, Int.cast_sub,
      Int.cast_mul, Int.cast_natCast, signedNumerator_eq, ← sub_mul, abs_mul, abs_of_pos hden,
      mul_right_comm, mul_le_iff_le_one_left hden, le_div_iff₀ (by positivity)]
    norm_num
  · rw [← Int.cast_le (R := ℚ), Int.cast_mul, Int.cast_natCast, signedNumerator_eq,
      mul_le_mul_iff_of_pos_right hden]
  · rw [← Int.cast_le (R := ℚ), Int.cast_mul, Int.cast_natCast, signedNumerator_eq,
      mul_le_mul_iff_of_pos_right hden]

theorem floor_eq (x : FiniteDouble) : x.floor = ⌊x.toRat⌋ := by
  rw [← signedNumerator_div_denominator, Rat.floor_intCast_div_natCast]
  rfl

theorem floor_le (x : FiniteDouble) : (x.floor : ℚ) ≤ x.toRat := by
  rw [floor_eq]
  exact Int.floor_le _

theorem nearFloor_iff : x.NearFloor ↔ x.toRat - x.floor ≤ 1 / 2 ^ 52 := by
  have hden := x.denominator_cast_pos
  unfold NearFloor
  rw [← Int.cast_le (R := ℚ), Int.emod_def]
  push_cast
  rw [signedNumerator_eq, ← floor, mul_comm (x.denominator : ℚ), ← sub_mul, mul_right_comm,
    mul_le_iff_le_one_left hden, le_div_iff₀ (by positivity)]
  norm_num

theorem nearFloor_of_whole {k : Int} (h : x.toRat = k) : x.NearFloor := by
  rw [nearFloor_iff, floor_eq, h, Int.floor_intCast, sub_self]
  positivity

/-- The double nearest to `10 ^ 60`. -/
def wholeLimit : FiniteDouble :=
  ⟨false, 0x13e9e4e4c2f344, 147, by decide⟩

/-- The double nearest to `10 ^ -6`. -/
def millionth : FiniteDouble :=
  ⟨false, 4722366482869645, -72, by decide⟩

theorem belowWholeLimit_iff : x.BelowWholeLimit ↔ x.magnitude < wholeLimit.magnitude := by
  unfold BelowWholeLimit
  rw [← Nat.cast_lt (α := ℚ), numerator_eq, Nat.cast_mul,
    mul_lt_mul_iff_of_pos_right x.denominator_cast_pos]
  norm_num [magnitude, wholeLimit]

theorem needsExponent_iff : x.NeedsExponent ↔
    x.magnitude < millionth.magnitude ∨ 10 ^ 9 < x.magnitude := by
  have hden := x.denominator_cast_pos
  unfold NeedsExponent
  refine or_congr ?_ ?_
  · rw [← Nat.cast_lt (α := ℚ), Nat.cast_mul, Nat.cast_mul, numerator_eq, mul_right_comm,
      mul_lt_mul_iff_of_pos_right hden, magnitude, magnitude, millionth, zpow_neg, lt_mul_inv_iff₀ (by positivity)]
    norm_num
  · rw [← Nat.cast_lt (α := ℚ), Nat.cast_mul, numerator_eq, mul_lt_mul_iff_of_pos_right hden]
    norm_num

/-! ## Rounded differences -/

/-- A multiple of `2 ^ -53` that is more than the last bit of one is more by a half. -/
theorem lt_of_units {v : ℚ} {m : Nat} (hv : v = m * 2 ^ (-53 : Int)) (h : 1 / 2 ^ 52 < v)
    {r : FiniteDouble} (hr : r.IsNearest v) : 1 / 2 ^ 52 < r.magnitude := by
  have hthree : (⟨false, 3 * 2 ^ 51, -104, by decide⟩ : FiniteDouble).magnitude ≤ v := by
    have hm : 2 < m := by
      have : (2 : ℚ) < m := by
        rw [hv] at h
        norm_num at h
        linarith
      exact_mod_cast this
    have hm' : (3 : ℚ) ≤ m := by exact_mod_cast hm
    rw [hv]
    norm_num [magnitude]
    linarith
  refine lt_of_lt_of_le ?_ (hr.ge_of_ge hthree)
  norm_num [magnitude]

/-- A double next to an integer that is not zero is more than a half, so its last bit is at least
half of that of one. -/
theorem le_exponent_of_near {i : Int} (hi : i ≠ 0) (h : |(i : ℚ) - x.toRat| < 1 / 2) :
    -53 ≤ x.exponent := by
  have hone : (1 : ℚ) ≤ |(i : ℚ)| := by exact_mod_cast Int.one_le_abs hi
  have hhalf : 1 / 2 < x.magnitude := by
    have := abs_sub_abs_le_abs_sub (i : ℚ) x.toRat
    rw [abs_toRat] at this
    linarith
  refine not_lt.1 fun hlt => ?_
  have := magnitude_lt hlt
  norm_num at this
  linarith

theorem exists_toRat_eq {q : Int} (h : q ≤ x.exponent) : ∃ t : Int, x.toRat = t * 2 ^ q := by
  obtain ⟨k, hk⟩ := exists_magnitude_eq h
  rcases x.toRat_eq_or with hx | hx
  · exact ⟨k, by rw [hx, hk, Int.cast_natCast]⟩
  · exact ⟨-k, by rw [hx, hk, Int.cast_neg, Int.cast_natCast, neg_mul]⟩

/-- Rounding the distance to an integer does not change whether it is at most the last bit of
one. -/
theorem magnitude_le_bit_iff {i : Int} {r : FiniteDouble}
    (hr : r.IsNearest |(i : ℚ) - x.toRat|) :
    r.magnitude ≤ 1 / 2 ^ 52 ↔ |(i : ℚ) - x.toRat| ≤ 1 / 2 ^ 52 := by
  constructor
  · refine fun hle => not_lt.1 fun hgt => absurd hle (not_le.2 ?_)
    by_cases hhalf : 1 / 2 ≤ |(i : ℚ) - x.toRat|
    · have hle : (⟨false, 2 ^ 52, -53, by decide⟩ : FiniteDouble).magnitude ≤ |(i : ℚ) - x.toRat| :=
        le_trans (by norm_num [magnitude]) hhalf
      exact lt_of_lt_of_le (by norm_num [magnitude]) (hr.ge_of_ge hle)
    rcases eq_or_ne i 0 with rfl | hi
    · -- the distance to zero is a double itself
      rw [Int.cast_zero, zero_sub, abs_neg, abs_toRat] at hr hgt
      rwa [hr.eq_of_magnitude_eq rfl]
    · -- next to another integer a double is a multiple of half the last bit of one
      obtain ⟨t, ht⟩ := exists_toRat_eq (le_exponent_of_near hi (not_le.1 hhalf))
      have hunit : (0 : ℚ) < 2 ^ (-53 : Int) := by positivity
      have hdistance : (i : ℚ) - x.toRat = (i * 2 ^ 53 - t : Int) * 2 ^ (-53 : Int) := by
        rw [ht]
        push_cast
        norm_num
        ring
      refine lt_of_units (m := (i * 2 ^ 53 - t).natAbs) ?_ hgt hr
      rw [hdistance, abs_mul, abs_of_pos hunit, Nat.cast_natAbs, Int.cast_abs]
  · intro hle
    have hle' : |(i : ℚ) - x.toRat| ≤ (⟨false, 2 ^ 52, -104, by decide⟩ : FiniteDouble).magnitude :=
      hle.trans (by norm_num [magnitude])
    exact (hr.le_of_le hle').trans (by norm_num [magnitude])

/-- What agrees with an integer is told by the rounded difference. -/
theorem agreesWith_iff_rounded {i : Int} {r : FiniteDouble}
    (hr : r.IsNearest |(i : ℚ) - x.toRat|) : x.AgreesWith i ↔
      r.magnitude ≤ 1 / 2 ^ 52 ∧ (leastInt32 : ℚ) ≤ x.toRat ∧ x.toRat ≤ greatestInt32 := by
  rw [agreesWith_iff, magnitude_le_bit_iff hr]

/-- What is next to its floor is told by the rounded difference. -/
theorem nearFloor_iff_rounded {r : FiniteDouble} (hr : r.IsNearest |(x.floor : ℚ) - x.toRat|) :
    x.NearFloor ↔ r.magnitude ≤ 1 / 2 ^ 52 := by
  rw [nearFloor_iff, magnitude_le_bit_iff hr, abs_sub_comm,
    abs_of_nonneg (sub_nonneg.2 x.floor_le)]

/-! ## The integer beside a double -/

theorem toInt32_mem (x : FiniteDouble) :
    leastInt32 ≤ (Double.finite x).toInt32 ∧ (Double.finite x).toInt32 ≤ greatestInt32 := by
  have hclamp : ∀ i : Int, leastInt32 ≤ clampInt32 i ∧ clampInt32 i ≤ greatestInt32 := by
    intro i
    unfold clampInt32 leastInt32 greatestInt32
    omega
  exact hclamp _

/-- The integer beside a whole number within 32 bits is that number. -/
theorem toInt32_eq {k : Int} (h : x.toRat = k) (hlower : leastInt32 ≤ k)
    (hupper : k ≤ greatestInt32) : (Double.finite x).toInt32 = k := by
  have hmagnitude : x.magnitude = (k.natAbs : Nat) := by
    rw [← abs_toRat, h, Nat.cast_natAbs, Int.cast_abs]
  have hwhole : x.wholePart = k.natAbs := by
    have hnum : x.numerator = k.natAbs * x.denominator := by
      have := x.numerator_eq
      rw [hmagnitude] at this
      exact_mod_cast this
    rw [wholePart, hnum, Nat.mul_div_cancel _ x.denominator_pos]
  have hsigned : signed x.negative x.wholePart = k := by
    have hnonneg := x.magnitude_nonneg
    rw [toRat] at h
    rw [hwhole]
    cases hnegative : x.negative with
    | true =>
      rw [hnegative, if_pos rfl] at h
      have : (k : ℚ) ≤ 0 := by linarith
      have : k ≤ 0 := by exact_mod_cast this
      rw [signed, if_pos rfl]
      omega
    | false =>
      rw [hnegative, if_neg Bool.false_ne_true] at h
      have : (0 : ℚ) ≤ k := by linarith
      have : 0 ≤ k := by exact_mod_cast this
      rw [signed, if_neg Bool.false_ne_true]
      omega
  rw [Double.toInt32, hsigned, clampInt32, min_eq_right hupper, max_eq_right hlower]

theorem toInt32_of_magnitude_lt (h : x.magnitude < 1) : (Double.finite x).toInt32 = 0 := by
  have hwhole : x.wholePart = 0 := by
    have hlt : x.numerator < x.denominator := by
      have := mul_lt_mul_of_pos_right h x.denominator_cast_pos
      rw [← numerator_eq, one_mul] at this
      exact_mod_cast this
    exact Nat.div_eq_of_lt hlt
  rw [Double.toInt32, hwhole]
  cases x.negative <;> decide

/-- A whole number within 32 bits agrees with the integer beside it. -/
theorem agreesWith_toInt32 {k : Int} (h : x.toRat = k) (hlower : leastInt32 ≤ k)
    (hupper : k ≤ greatestInt32) : x.AgreesWith (Double.finite x).toInt32 := by
  rw [toInt32_eq h hlower hupper, agreesWith_iff, h, sub_self, abs_zero]
  exact ⟨by positivity, by exact_mod_cast hlower, by exact_mod_cast hupper⟩

/-- Next to nothing agrees with zero. -/
theorem agreesWith_of_magnitude_le (h : x.magnitude ≤ 1 / 2 ^ 52) :
    x.AgreesWith (Double.finite x).toInt32 := by
  have hlt : x.magnitude < 1 := h.trans_lt (by norm_num)
  rw [toInt32_of_magnitude_lt hlt, agreesWith_iff, Int.cast_zero, zero_sub, abs_neg, abs_toRat]
  have := abs_le.1 (x.abs_toRat.le.trans h)
  refine ⟨h, ?_, ?_⟩
  · norm_num [leastInt32]
    linarith
  · norm_num [greatestInt32]
    linarith

/-- What is away from all whole numbers is written with a fraction. -/
theorem not_agreesWith_of_lt (h : ∀ k : Int, 1 / 2 ^ 52 < |(k : ℚ) - x.toRat|) :
    (∀ i, ¬ x.AgreesWith i) ∧ ¬ x.NearFloor := by
  refine ⟨fun i hi => absurd (agreesWith_iff.1 hi).1 (not_le.2 (h i)), fun hfloor => ?_⟩
  have hle := x.floor_le
  have := h x.floor
  rw [abs_of_nonpos (by linarith), neg_sub] at this
  exact absurd (nearFloor_iff.1 hfloor) (not_le.2 this)

end FiniteDouble

end LinkedJson
