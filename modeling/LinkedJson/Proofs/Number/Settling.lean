import LinkedJson.Proofs.Number.Conditions
import LinkedJson.Proofs.Number.Notations
import LinkedJson.Proofs.Number.SevenDigits

/-!
# Numbers settle

Reading the text of a double and writing it again gives another text at most once
(`FiniteDouble.settles`): a number jumps from one notation to another when its text is read, but the
double that is read keeps its text from then on. A whole number keeps its text at once
(`FiniteDouble.settled_of_whole`).

Each notation is followed on its own. Whole numbers are read exactly. Seven digits determine
themselves, since a double is nearer to what it was rounded from than to any other seven digits;
below the limit of the notation they may turn into nothing at all or into `0.000001`, and above
`10 ^ 9` into a whole number. Six decimals are determined in the same way, unless they are all zero.
-/

namespace LinkedJson.FiniteDouble

open NumberText

variable {x y : FiniteDouble}

/-! ## Writing and reading again -/

/-- The text of a double that has no other integer beside it than its own. -/
def written (x : FiniteDouble) : List Char :=
  x.text (Double.finite x).toInt32

/-- The literal that the text is. -/
def literal (x : FiniteDouble) : NumberLiteral.Parts :=
  x.parts (Double.finite x).toInt32

/-- The double that the text is read as. -/
def reread (x : FiniteDouble) : Double :=
  x.literal.decimal.toDouble

/-- The text is read as a double of the same text. -/
def Settled (x : FiniteDouble) : Prop :=
  ∃ y, x.reread = .finite y ∧ y.written = x.written

theorem rounds_reread (x : FiniteDouble) :
    Double.Rounds x.literal.negative x.literal.magnitude x.reread :=
  x.literal.rounds_toDouble

/-- What is read depends on the text alone. -/
theorem reread_eq_of_written_eq (h : y.written = x.written) : y.reread = x.reread := by
  have hy := y.read_text (Double.finite y).toInt32
  have hx := x.read_text (Double.finite x).toInt32
  rw [← written, h, written, hx] at hy
  simp only [Except.ok.injEq, Prod.mk.injEq, and_true] at hy
  exact hy.symm

/-- The double that a settled text is read as is settled. -/
theorem Settled.exists_reread (h : x.Settled) : ∃ y, x.reread = .finite y ∧ y.Settled := by
  obtain ⟨y, hread, hwritten⟩ := h
  exact ⟨y, hread, y, (reread_eq_of_written_eq hwritten).trans hread, rfl⟩

/-! ## Whole numbers -/

/-- A whole number below the limit is written with all its digits. -/
theorem written_of_whole {k : Int} (h : x.toRat = k)
    (hlimit : x.magnitude < wholeLimit.magnitude) : x.written = integer k := by
  by_cases hrange : leastInt32 ≤ k ∧ k ≤ greatestInt32
  · rw [written, text, if_pos (agreesWith_toInt32 h hrange.1 hrange.2),
      toInt32_eq h hrange.1 hrange.2]
  · have hagrees : ¬ x.AgreesWith (Double.finite x).toInt32 := by
      intro hagrees
      obtain ⟨-, hlower, hupper⟩ := agreesWith_iff.1 hagrees
      rw [h] at hlower hupper
      exact hrange ⟨by exact_mod_cast hlower, by exact_mod_cast hupper⟩
    have hfloor : x.floor = k := by rw [floor_eq, h, Int.floor_intCast]
    rw [written, text, if_neg hagrees,
      if_pos ⟨nearFloor_of_whole h, belowWholeLimit_iff.2 hlimit⟩, hfloor]

/-- An integer by its sign and its magnitude. -/
theorem ite_neg_abs (k : Int) :
    (if decide (k < 0) = true then -|(k : ℚ)| else |(k : ℚ)|) = k := by
  by_cases hk : k < 0
  · have : (k : ℚ) < 0 := by exact_mod_cast hk
    rw [if_pos (decide_eq_true hk), abs_of_neg this, neg_neg]
  · have : (0 : ℚ) ≤ k := by exact_mod_cast not_lt.1 hk
    rw [if_neg (by simpa using hk), abs_of_nonneg this]

/-- A double that is written as an integer of 53 bits, or as itself, is read as that integer. -/
theorem exists_reread_of_integer {k : Int}
    (hliteral : x.literal = wholeParts (decide (k < 0)) k.natAbs)
    (hz : ∃ z : FiniteDouble, z.magnitude = k.natAbs) :
    ∃ y, x.reread = .finite y ∧ y.toRat = k := by
  obtain ⟨z, hz⟩ := hz
  have hrounds := x.rounds_reread
  rw [hliteral, magnitude_wholeParts] at hrounds
  obtain ⟨y, hread, hnegative, hnearest⟩ :=
    hrounds.exists_finite (hz ▸ z.magnitude_lt_overflow)
  refine ⟨y, hread, ?_⟩
  have hmagnitude := hnearest.eq_of_magnitude_eq hz
  have hsign : y.negative = decide (k < 0) := hnegative
  rw [toRat, hmagnitude, hsign, natAbs_cast, ite_neg_abs]

theorem settled_of_integer {k : Int}
    (hliteral : x.literal = wholeParts (decide (k < 0)) k.natAbs) (hwritten : x.written = integer k)
    (hz : ∃ z : FiniteDouble, z.magnitude = k.natAbs)
    (hlimit : (k.natAbs : ℚ) < wholeLimit.magnitude) : x.Settled := by
  obtain ⟨y, hread, hy⟩ := exists_reread_of_integer hliteral hz
  refine ⟨y, hread, ?_⟩
  rw [hwritten, written_of_whole hy]
  rwa [← abs_toRat, hy, ← natAbs_cast]

theorem lt_wholeLimit {v : ℚ} (h : v < 2 ^ 53) : v < wholeLimit.magnitude := by
  refine h.trans ?_
  norm_num [magnitude, wholeLimit]

/-- What agrees with the integer beside it is settled. -/
theorem settled_of_agreesWith (h : x.AgreesWith (Double.finite x).toInt32) : x.Settled := by
  have hliteral : x.literal = wholeParts (decide ((Double.finite x).toInt32 < 0))
      (Double.finite x).toInt32.natAbs := by rw [literal, parts, if_pos h]
  have hwritten : x.written = integer (Double.finite x).toInt32 := by rw [written, text, if_pos h]
  obtain ⟨hlower, hupper⟩ := x.toInt32_mem
  have hlt : (Double.finite x).toInt32.natAbs < 2 ^ 53 := by
    unfold leastInt32 at hlower
    unfold greatestInt32 at hupper
    omega
  exact settled_of_integer hliteral hwritten (exists_magnitude_eq_natCast hlt)
    (lt_wholeLimit (by exact_mod_cast hlt))

/-- A double with a fraction is below `2 ^ 52`. -/
theorem magnitude_lt_of_not_whole (h : ∀ k : Int, x.toRat ≠ k) : x.magnitude < 2 ^ 52 := by
  have hexponent : x.exponent < 0 := by
    refine not_le.1 fun hle => ?_
    obtain ⟨k, hk⟩ := exists_magnitude_eq hle
    rw [zpow_zero, mul_one] at hk
    unfold toRat at h
    split at h
    · exact h (-k) (by rw [hk]; push_cast; rfl)
    · exact h k (by rw [hk]; push_cast; rfl)
  have := magnitude_lt hexponent
  rwa [zpow_zero, mul_one] at this

theorem natAbs_floor_lt_of_not_whole (h : ∀ k : Int, x.toRat ≠ k) : x.floor.natAbs < 2 ^ 53 := by
  have hlt := magnitude_lt_of_not_whole h
  rw [← abs_toRat, abs_lt] at hlt
  have hfloor := x.floor_eq
  have hlower : -2 ^ 52 ≤ ⌊x.toRat⌋ := Int.le_floor.2 (by push_cast; exact hlt.1.le)
  have hupper : ⌊x.toRat⌋ < 2 ^ 52 := Int.floor_lt.2 (by push_cast; exact hlt.2)
  omega

/-- What is next to its floor is settled below the limit. -/
theorem settled_of_nearFloor (hagrees : ¬ x.AgreesWith (Double.finite x).toInt32)
    (h : x.NearFloor ∧ x.BelowWholeLimit) : x.Settled := by
  have hliteral : x.literal = wholeParts (decide (x.floor < 0)) x.floor.natAbs := by
    rw [literal, parts, if_neg hagrees, if_pos h]
  have hwritten : x.written = integer x.floor := by
    rw [written, text, if_neg hagrees, if_pos h]
  by_cases hwhole : ∃ k : Int, x.toRat = k
  · obtain ⟨k, hk⟩ := hwhole
    have hfloor : x.floor = k := by rw [floor_eq, hk, Int.floor_intCast]
    have hmagnitude : x.magnitude = x.floor.natAbs := by
      rw [hfloor, natAbs_cast, ← hk, abs_toRat]
    exact settled_of_integer hliteral hwritten ⟨x, hmagnitude⟩
      (hmagnitude ▸ belowWholeLimit_iff.1 h.2)
  · have hlt := natAbs_floor_lt_of_not_whole (not_exists.1 hwhole)
    exact settled_of_integer hliteral hwritten (exists_magnitude_eq_natCast hlt)
      (lt_wholeLimit (by exact_mod_cast hlt))

/-! ## Seven digits -/

section Exponential

variable {n : Nat} {e : Int}

theorem exponential_congr {num den num' den' : Nat}
    (h : sevenDigits num den = sevenDigits num' den') :
    exponential num den = exponential num' den' := by
  unfold exponential
  rw [h]

/-- The conditions under which a double is written with an exponent. -/
structure TakesExponent (x : FiniteDouble) : Prop where
  not_agreesWith : ¬ x.AgreesWith (Double.finite x).toInt32
  not_nearFloor : ¬ (x.NearFloor ∧ x.BelowWholeLimit)
  needsExponent : x.NeedsExponent

theorem TakesExponent.written_eq (h : x.TakesExponent) :
    x.written = withSign x.negative (exponential x.numerator x.denominator) := by
  rw [written, text, if_neg h.not_agreesWith, if_neg h.not_nearFloor, if_pos h.needsExponent]

/-- What is written with an exponent is read as the double nearest to its seven digits, unless they
overflow. -/
theorem TakesExponent.exists_reread (h : x.TakesExponent)
    (hdigits : sevenDigits x.numerator x.denominator = (n, e))
    (hv : n * (10 : ℚ) ^ (e - 6) < Double.overflow) :
    ∃ y, x.reread = .finite y ∧ y.negative = x.negative ∧ y.IsNearest (n * 10 ^ (e - 6)) := by
  have hliteral : x.literal = decimalParts x.negative n (some (exponentPart e)) := by
    rw [literal, parts, if_neg h.not_agreesWith, if_neg h.not_nearFloor, if_pos h.needsExponent,
      hdigits]
  have hrounds := x.rounds_reread
  rw [hliteral, magnitude_exponentialParts] at hrounds
  exact hrounds.exists_finite hv

/-- The double nearest to a number of seven digits has these digits. -/
theorem sevenDigits_of_isNearest (hn_lower : 10 ^ 6 ≤ n) (hn_upper : n < 10 ^ 7)
    (hy : y.IsNearest (n * 10 ^ (e - 6))) (hlower : (2 : ℚ) ^ (-1022 : Int) ≤ n * 10 ^ (e - 6))
    (hupper : n * (10 : ℚ) ^ (e - 6) < 2 ^ (1024 : Int)) :
    sevenDigits y.numerator y.denominator = (n, e) := by
  refine sevenDigits_eq y.denominator_pos hn_lower hn_upper ?_
  rw [numerator_div_denominator]
  have hu : (0 : ℚ) < 10 ^ (e - 6) := by positivity
  have hn : (n : ℚ) < 10 ^ 7 := by exact_mod_cast hn_upper
  calc |y.magnitude - n * 10 ^ (e - 6)| ≤ n * 10 ^ (e - 6) * 2 ^ (-52 : Int) :=
        hy.abs_sub_le hlower hupper
    _ = n * 2 ^ (-52 : Int) * 10 ^ (e - 6) := by ring
    _ ≤ 10 ^ 7 * 2 ^ (-52 : Int) * 10 ^ (e - 6) := by gcongr
    _ < 1 / 20 * 10 ^ (e - 6) := mul_lt_mul_of_pos_right (by norm_num) hu

/-- If what is read takes an exponent too, then the seven digits stay. -/
theorem TakesExponent.settled (hx : x.TakesExponent)
    (hdigits : sevenDigits x.numerator x.denominator = (n, e)) (hread : x.reread = .finite y)
    (hnegative : y.negative = x.negative) (hy : y.TakesExponent)
    (hdigits' : sevenDigits y.numerator y.denominator = (n, e)) : x.Settled := by
  refine ⟨y, hread, ?_⟩
  rw [hx.written_eq, hy.written_eq, hnegative, exponential_congr (hdigits'.trans hdigits.symm)]

theorem numerator_pos (h : 0 < x.magnitude) : 0 < x.numerator := by
  have := mul_pos h x.denominator_cast_pos
  rw [← numerator_eq] at this
  exact_mod_cast this

theorem sevenDigits_bounds (hpos : 0 < x.magnitude)
    (hdigits : sevenDigits x.numerator x.denominator = (n, e)) :
    10 ^ 6 ≤ n ∧ n < 10 ^ 7 ∧ |(n : ℚ) * 10 ^ (e - 6) - x.magnitude| ≤ 1 / 2 * 10 ^ (e - 6) ∧
      ((10 ^ e ≤ x.magnitude ∧ x.magnitude < 10 ^ (e + 1)) ∨
        (n = 10 ^ 6 ∧ 10 ^ (e - 1) ≤ x.magnitude ∧ x.magnitude < 10 ^ e)) := by
  have h := sevenDigits_spec (numerator_pos hpos) x.denominator_pos hdigits
  rwa [numerator_div_denominator] at h

theorem takesExponent_of_wholeLimit_le (h : wholeLimit.magnitude ≤ x.magnitude) :
    x.TakesExponent := by
  have hlarge : (10 : ℚ) ^ 10 < x.magnitude := by
    refine lt_of_lt_of_le ?_ h
    norm_num [magnitude, wholeLimit]
  refine ⟨fun hagrees => ?_, fun hfloor => ?_, needsExponent_iff.2 (.inr ?_)⟩
  · obtain ⟨-, hlower, hupper⟩ := agreesWith_iff.1 hagrees
    have : x.magnitude ≤ 2147483648 := by
      rw [← abs_toRat, abs_le]
      unfold leastInt32 at hlower
      unfold greatestInt32 at hupper
      norm_num at hlower hupper
      constructor <;> linarith
    norm_num at hlarge
    linarith
  · exact not_lt.2 h (belowWholeLimit_iff.1 hfloor.2)
  · exact lt_trans (by norm_num) hlarge

/-- The greatest double is below `1.7976935` times a power of ten, and the seven digits in front of
that are no overflow. -/
theorem overflow_bounds : 1797693 * (10 : ℚ) ^ (302 : Int) < Double.overflow ∧
    (2 : ℚ) ^ (1024 : Int) < (1797693 + 1 / 2) * 10 ^ (302 : Int) := by
  have hlower : 1797693 * Nat.pow 10 302 + Nat.pow 2 970 < Nat.pow 2 1024 := by decide +kernel
  have hupper : 2 * Nat.pow 2 1024 < 3595387 * Nat.pow 10 302 := by decide +kernel
  have hlower' := (Nat.cast_lt (α := ℚ)).2 hlower
  have hupper' := (Nat.cast_lt (α := ℚ)).2 hupper
  simp only [Nat.pow_eq, Nat.cast_add, Nat.cast_mul, Nat.cast_pow, Nat.cast_ofNat] at hlower' hupper'
  rw [Double.overflow]
  simp only [zpow_ofNat]
  generalize (2 : ℚ) ^ 1024 = a at *
  generalize (2 : ℚ) ^ 970 = b at *
  generalize (10 : ℚ) ^ 302 = c at *
  constructor <;> linarith

/-- Seven digits of a double do not overflow. -/
theorem lt_overflow_of_sevenDigits (hpos : 0 < x.magnitude)
    (hdigits : sevenDigits x.numerator x.denominator = (n, e)) :
    n * (10 : ℚ) ^ (e - 6) < Double.overflow := by
  obtain ⟨hn_lower, hn_upper, herror, -⟩ := sevenDigits_bounds hpos hdigits
  obtain ⟨hlower, hupper⟩ := overflow_bounds
  have hn_lower' : (10 : ℚ) ^ 6 ≤ n := by exact_mod_cast hn_lower
  have hn_upper' : (n : ℚ) < 10 ^ 7 := by exact_mod_cast hn_upper
  have hx : x.magnitude < (1797693 + 1 / 2) * 10 ^ (302 : Int) := by
    refine x.magnitude_lt_overflow.trans (lt_of_le_of_lt ?_ hupper)
    rw [Double.overflow]
    exact sub_le_self _ (by positivity)
  have hw : (0 : ℚ) < 10 ^ (302 : Int) := by positivity
  obtain ⟨herror_lower, herror_upper⟩ := abs_le.1 herror
  rcases lt_trichotomy e 308 with hlt | rfl | hgt
  · have hu : (10 : ℚ) ^ (e - 6) ≤ 10 ^ (301 : Int) :=
      zpow_le_zpow_right₀ (by norm_num) (by omega)
    have hten : (10 : ℚ) ^ (302 : Int) = 10 * 10 ^ (301 : Int) := by
      rw [show (302 : Int) = 301 + 1 by rfl, zpow_add_one₀ (by norm_num), mul_comm]
    calc (n : ℚ) * 10 ^ (e - 6) ≤ 10 ^ 7 * 10 ^ (301 : Int) :=
          mul_le_mul hn_upper'.le hu (by positivity) (by positivity)
      _ = 10 ^ 6 * 10 ^ (302 : Int) := by rw [hten]; ring
      _ ≤ 1797693 * 10 ^ (302 : Int) := mul_le_mul_of_nonneg_right (by norm_num) hw.le
      _ < Double.overflow := hlower
  · rw [show (308 : Int) - 6 = 302 by rfl] at *
    have hn : n < 1797694 := by
      have : (n : ℚ) < 1797694 := by
        refine lt_of_mul_lt_mul_right (a := (10 : ℚ) ^ (302 : Int)) ?_ hw.le
        linarith
      exact_mod_cast this
    have hn' : (n : ℚ) ≤ 1797693 := by exact_mod_cast Nat.lt_succ_iff.1 hn
    exact (mul_le_mul_of_nonneg_right hn' hw.le).trans_lt hlower
  · exfalso
    have hu : (10 : ℚ) ^ (303 : Int) ≤ 10 ^ (e - 6) :=
      zpow_le_zpow_right₀ (by norm_num) (by omega)
    rw [show (303 : Int) = 302 + 1 by rfl, zpow_add_one₀ (by norm_num)] at hu
    have := mul_le_mul_of_nonneg_right hn_lower' (by positivity : (0 : ℚ) ≤ 10 ^ (e - 6))
    generalize (10 : ℚ) ^ (302 : Int) = w at *
    generalize (10 : ℚ) ^ (e - 6) = u at *
    linarith only [hx, hw, herror_upper, this, hu]

theorem overflow_le : Double.overflow ≤ 2 ^ (1024 : Int) := by
  rw [Double.overflow]
  exact sub_le_self _ (by positivity)

/-- What is large keeps its seven digits. -/
theorem settled_of_wholeLimit_le (h : wholeLimit.magnitude ≤ x.magnitude) : x.Settled := by
  have hpos : 0 < x.magnitude := lt_of_lt_of_le (by norm_num [magnitude, wholeLimit]) h
  obtain ⟨⟨n, e⟩, hdigits⟩ : ∃ p, sevenDigits x.numerator x.denominator = p := ⟨_, rfl⟩
  obtain ⟨hn_lower, hn_upper, herror, -⟩ := sevenDigits_bounds hpos hdigits
  have hv := lt_overflow_of_sevenDigits hpos hdigits
  have hx := takesExponent_of_wholeLimit_le h
  obtain ⟨y, hread, hnegative, hnearest⟩ := hx.exists_reread hdigits hv
  have hn_lower' : (10 : ℚ) ^ 6 ≤ n := by exact_mod_cast hn_lower
  have hn_upper' : (n : ℚ) + 1 ≤ 10 ^ 7 := by exact_mod_cast hn_upper
  -- below `10 ^ 60` there is no number of seven digits that is near enough
  have hv_lower : wholeLimit.magnitude ≤ n * 10 ^ (e - 6) := by
    have hlimit : wholeLimit.magnitude ≤ (10 : ℚ) ^ 6 * 10 ^ (54 : Int) := by
      norm_num [magnitude, wholeLimit]
    have hlimit' : (10 ^ 7 - 1 / 2) * (10 : ℚ) ^ (53 : Int) < wholeLimit.magnitude := by
      norm_num [magnitude, wholeLimit]
    by_cases he : 60 ≤ e
    · refine hlimit.trans (mul_le_mul hn_lower' ?_ (by positivity) (by positivity))
      exact zpow_le_zpow_right₀ (by norm_num) (by omega)
    · exfalso
      have hu : (10 : ℚ) ^ (e - 6) ≤ 10 ^ (53 : Int) :=
        zpow_le_zpow_right₀ (by norm_num) (by omega)
      have hn : ((n : ℚ) + 1 / 2) * 10 ^ (e - 6) ≤ (10 ^ 7 - 1 / 2) * 10 ^ (53 : Int) :=
        mul_le_mul (by linarith) hu (by positivity) (by norm_num)
      linarith [(abs_le.1 herror).1]
  have hy := takesExponent_of_wholeLimit_le (hnearest.ge_of_ge hv_lower)
  have hv_tiny : (2 : ℚ) ^ (-1022 : Int) ≤ n * 10 ^ (e - 6) := by
    refine le_trans ?_ hv_lower
    calc (2 : ℚ) ^ (-1022 : Int) ≤ 2 ^ (0 : Int) := zpow_le_zpow_right₀ one_le_two (by decide)
      _ ≤ wholeLimit.magnitude := by norm_num [magnitude, wholeLimit]
  exact hx.settled hdigits hread hnegative hy
    (sevenDigits_of_isNearest hn_lower hn_upper hnearest hv_tiny (hv.trans_le overflow_le))

/-- **A whole number is settled.** -/
theorem settled_of_whole {k : Int} (h : x.toRat = k) : x.Settled := by
  by_cases hlimit : x.magnitude < wholeLimit.magnitude
  · by_cases hagrees : x.AgreesWith (Double.finite x).toInt32
    · exact settled_of_agreesWith hagrees
    · exact settled_of_nearFloor hagrees ⟨nearFloor_of_whole h, belowWholeLimit_iff.2 hlimit⟩
  · exact settled_of_wholeLimit_le (not_lt.1 hlimit)

theorem settled_of_magnitude_eq {k : Nat} (h : x.magnitude = k) : x.Settled := by
  obtain ⟨j, hj⟩ := exists_toRat_eq_of_magnitude_eq h
  exact settled_of_whole hj

/-- Seven digits of a large number with a fraction are read as a whole number. -/
theorem TakesExponent.settles_of_large (hx : x.TakesExponent) (hlarge : 10 ^ 9 < x.magnitude)
    (hfraction : x.magnitude < 2 ^ 52) : ∃ y, x.reread = .finite y ∧ y.Settled := by
  have hpos : 0 < x.magnitude := lt_trans (by positivity) hlarge
  obtain ⟨⟨n, e⟩, hdigits⟩ : ∃ p, sevenDigits x.numerator x.denominator = p := ⟨_, rfl⟩
  obtain ⟨hn_lower, hn_upper, herror, hrange⟩ := sevenDigits_bounds hpos hdigits
  obtain ⟨y, hread, -, hnearest⟩ :=
    hx.exists_reread hdigits (lt_overflow_of_sevenDigits hpos hdigits)
  have he : 9 ≤ e := by
    have : (10 : ℚ) ^ (9 : Int) < 10 ^ (e + 1) := by
      rcases hrange with ⟨-, hupper⟩ | ⟨-, -, hupper⟩
      · exact hlarge.trans hupper
      · exact (hlarge.trans hupper).trans (zpow_lt_zpow_right₀ (by norm_num) (by omega))
    have := (zpow_lt_zpow_iff_right₀ (by norm_num : (1 : ℚ) < 10)).1 this
    omega
  obtain ⟨k, hk⟩ : ∃ k : Nat, e - 6 = k := ⟨(e - 6).toNat, by omega⟩
  have hv : (n : ℚ) * 10 ^ (e - 6) = (n * 10 ^ k : Nat) := by
    rw [hk, zpow_natCast]
    push_cast
    rfl
  have hbits : n * 10 ^ k < 2 ^ 53 := by
    have hu := mul_le_mul_of_nonneg_right (by exact_mod_cast hn_lower : (10 : ℚ) ^ 6 ≤ n)
      (by positivity : (0 : ℚ) ≤ 10 ^ (e - 6))
    have : (n : ℚ) * 10 ^ (e - 6) < 2 ^ 53 := by linarith [(abs_le.1 herror).2]
    rw [hv] at this
    exact_mod_cast this
  obtain ⟨z, hz⟩ := exists_magnitude_eq_natCast hbits
  rw [hv] at hnearest
  exact ⟨y, hread, settled_of_magnitude_eq (hnearest.eq_of_magnitude_eq hz)⟩

/-- What is below one and not next to nothing is away from all whole numbers. -/
theorem lt_abs_sub_of_small (hlower : 1 / 2 ^ 52 < x.magnitude) (hupper : x.magnitude < 1 / 2)
    (k : Int) : 1 / 2 ^ 52 < |(k : ℚ) - x.toRat| := by
  rcases eq_or_ne k 0 with rfl | hk
  · rwa [Int.cast_zero, zero_sub, abs_neg, abs_toRat]
  · have hone : (1 : ℚ) ≤ |(k : ℚ)| := by exact_mod_cast Int.one_le_abs hk
    have := abs_sub_abs_le_abs_sub (k : ℚ) x.toRat
    rw [abs_toRat] at this
    refine lt_of_lt_of_le ?_ this
    norm_num at hlower ⊢
    linarith

theorem millionth_lt : millionth.magnitude < 10 ^ (-6 : Int) := by
  norm_num [magnitude, millionth]

/-- The double nearest to a millionth, of either sign, is written with six decimals and read as
itself. -/
theorem millionth_settled (negative : Bool) :
    (decimalParts negative (10 ^ 6) (some (exponentPart (-6)))).decimal.toDouble =
      .finite { millionth with negative } ∧
    ({ millionth with negative } : FiniteDouble).Settled := by
  have hself : ({ millionth with negative } : FiniteDouble).reread =
      .finite { millionth with negative } := by
    cases negative <;> decide +kernel
  refine ⟨?_, _, hself, rfl⟩
  cases negative <;> decide +kernel

/-- The exponent of a number below a millionth, unless it is rounded up to a millionth. -/
theorem sevenDigits_of_small (hpos : 0 < x.magnitude) (hsmall : x.magnitude < millionth.magnitude)
    (hdigits : sevenDigits x.numerator x.denominator = (n, e)) :
    x.magnitude < 10 ^ (e + 1) ∧ (e ≤ -7 ∨ e = -6 ∧ n = 10 ^ 6) := by
  obtain ⟨-, -, -, hrange⟩ := sevenDigits_bounds hpos hdigits
  have hpower := hsmall.trans millionth_lt
  rcases hrange with ⟨hle, hlt⟩ | ⟨hn, hle, hlt⟩
  · have := (zpow_lt_zpow_iff_right₀ (by norm_num : (1 : ℚ) < 10)).1 (hle.trans_lt hpower)
    exact ⟨hlt, .inl (by omega)⟩
  · have := (zpow_lt_zpow_iff_right₀ (by norm_num : (1 : ℚ) < 10)).1 (hle.trans_lt hpower)
    refine ⟨hlt.trans (zpow_lt_zpow_right₀ (by norm_num) (by omega)), ?_⟩
    rcases eq_or_ne e (-6) with he | he
    · exact .inr ⟨he, hn⟩
    · exact .inl (by omega)

/-- Seven digits of a small number that is not next to nothing are neither tiny nor rounded up to a
millionth. -/
theorem small_digits_bounds (hn_lower : 10 ^ 6 ≤ n) (hn_upper : n < 10 ^ 7) (he : e ≤ -7)
    (hlower : 1 / 2 ^ 52 < (10 : ℚ) ^ (e + 1)) :
    (2 : ℚ) ^ (-1022 : Int) ≤ n * 10 ^ (e - 6) ∧
      n * (10 : ℚ) ^ (e - 6) ≤ (10 ^ 7 - 1) * 10 ^ (-13 : Int) := by
  have hu : (0 : ℚ) < 10 ^ (e - 6) := by positivity
  have hu_upper : (10 : ℚ) ^ (e - 6) ≤ 10 ^ (-13 : Int) :=
    zpow_le_zpow_right₀ (by norm_num) (by omega)
  have hn_lower' : (10 : ℚ) ^ 6 ≤ n := by exact_mod_cast hn_lower
  have hn_upper' : (n : ℚ) ≤ 10 ^ 7 - 1 := by
    rw [le_sub_iff_add_le]
    exact_mod_cast hn_upper
  refine ⟨?_, mul_le_mul hn_upper' hu_upper hu.le (by norm_num)⟩
  have htiny : (2 : ℚ) ^ (-1022 : Int) ≤ 2 ^ (-56 : Int) :=
    zpow_le_zpow_right₀ one_le_two (by decide)
  have := mul_le_mul_of_nonneg_right hn_lower' hu.le
  rw [ten_zpow_add_one_eq] at hlower
  refine htiny.trans ?_
  norm_num at hlower ⊢
  linarith

/-- Such digits are read as less than a millionth. -/
theorem lt_millionth_of_isNearest {v : ℚ} (hy : y.IsNearest v) (hlower : 2 ^ (-1022 : Int) ≤ v)
    (hupper : v ≤ (10 ^ 7 - 1) * 10 ^ (-13 : Int)) : y.magnitude < millionth.magnitude := by
  have hv_one : v < 2 ^ (1024 : Int) :=
    lt_of_lt_of_le (lt_of_le_of_lt hupper (by norm_num)) (one_le_zpow₀ one_le_two (by decide))
  have herror := (abs_le.1 (hy.abs_sub_le hlower hv_one)).2
  have hscale : v * (2 : ℚ) ^ (-52 : Int) ≤ (10 ^ 7 - 1) * 10 ^ (-13 : Int) * 2 ^ (-52 : Int) :=
    mul_le_mul_of_nonneg_right hupper (by positivity)
  calc y.magnitude ≤ (10 ^ 7 - 1) * (10 : ℚ) ^ (-13 : Int) * (1 + 2 ^ (-52 : Int)) := by linarith
    _ < millionth.magnitude := by norm_num [magnitude, millionth]

/-- What is below a millionth is written as zero or with an exponent. -/
theorem agreesWith_or_takesExponent_of_small (hsmall : x.magnitude < millionth.magnitude) :
    x.AgreesWith (Double.finite x).toInt32 ∨ x.TakesExponent := by
  by_cases hlower : x.magnitude ≤ 1 / 2 ^ 52
  · exact .inl (agreesWith_of_magnitude_le hlower)
  · have hhalf : x.magnitude < 1 / 2 := (hsmall.trans millionth_lt).trans (by norm_num)
    obtain ⟨hagrees, hnear⟩ :=
      not_agreesWith_of_lt (lt_abs_sub_of_small (not_le.1 hlower) hhalf)
    exact .inr ⟨hagrees _, fun h => hnear h.1, needsExponent_iff.2 (.inl hsmall)⟩

/-- Seven digits of a small number stay, unless they are read as next to nothing or rounded up to
a millionth. -/
theorem TakesExponent.settles_of_small (hx : x.TakesExponent)
    (hsmall : x.magnitude < millionth.magnitude) : ∃ y, x.reread = .finite y ∧ y.Settled := by
  have hlower : 1 / 2 ^ 52 < x.magnitude :=
    not_le.1 fun hle => hx.not_agreesWith (agreesWith_of_magnitude_le hle)
  have hpos : 0 < x.magnitude := lt_trans (by positivity) hlower
  obtain ⟨⟨n, e⟩, hdigits⟩ : ∃ p, sevenDigits x.numerator x.denominator = p := ⟨_, rfl⟩
  obtain ⟨hn_lower, hn_upper, -, -⟩ := sevenDigits_bounds hpos hdigits
  obtain ⟨hupper, he | ⟨rfl, rfl⟩⟩ := sevenDigits_of_small hpos hsmall hdigits
  · obtain ⟨hv_lower, hv_upper⟩ := small_digits_bounds hn_lower hn_upper he (hlower.trans hupper)
    have hv := lt_overflow_of_sevenDigits hpos hdigits
    obtain ⟨y, hread, hnegative, hnearest⟩ := hx.exists_reread hdigits hv
    refine ⟨y, hread, ?_⟩
    rcases agreesWith_or_takesExponent_of_small
      (lt_millionth_of_isNearest hnearest hv_lower hv_upper) with hagrees | hy
    · exact settled_of_agreesWith hagrees
    · have hdigits' := sevenDigits_of_isNearest hn_lower hn_upper hnearest hv_lower
        (hv.trans_le overflow_le)
      obtain ⟨y', hread', hsettled⟩ :=
        (hx.settled hdigits hread hnegative hy hdigits').exists_reread
      rw [hread] at hread'
      cases hread'
      exact hsettled
  · have hliteral : x.literal = decimalParts x.negative (10 ^ 6) (some (exponentPart (-6))) := by
      rw [literal, parts, if_neg hx.not_agreesWith, if_neg hx.not_nearFloor,
        if_pos hx.needsExponent, hdigits]
    obtain ⟨hread, hsettled⟩ := millionth_settled x.negative
    exact ⟨_, by rw [reread, hliteral, hread], hsettled⟩

end Exponential

/-! ## Six decimals -/

/-- The conditions under which a double is written with six decimals. -/
structure TakesDecimals (x : FiniteDouble) : Prop where
  not_agreesWith : ¬ x.AgreesWith (Double.finite x).toInt32
  not_nearFloor : ¬ (x.NearFloor ∧ x.BelowWholeLimit)
  not_needsExponent : ¬ x.NeedsExponent

theorem TakesDecimals.written_eq (h : x.TakesDecimals) :
    x.written = withSign x.negative (sixDecimals x.numerator x.denominator) := by
  rw [written, text, if_neg h.not_agreesWith, if_neg h.not_nearFloor, if_neg h.not_needsExponent,
    sixByCutting_eq]

theorem sixDecimals_congr {num den num' den' : Nat}
    (h : roundDiv .even (num * Nat.pow 10 6) den = roundDiv .even (num' * Nat.pow 10 6) den') :
    sixDecimals num den = sixDecimals num' den' := by
  unfold sixDecimals
  rw [h]

/-- What is near a number of millionths that are not all whole is away from all whole numbers. -/
theorem lt_abs_sub_of_millionths {n : Nat} (hn : n % 10 ^ 6 ≠ 0)
    (h : |y.magnitude - n / 10 ^ 6| ≤ 1 / 2 * 10 ^ (-6 : Int)) (k : Int) :
    1 / 2 ^ 52 < |(k : ℚ) - y.toRat| := by
  -- a whole number is at least one millionth away from the number of millionths
  have hgap : ∀ k : Int, 10 ^ (-6 : Int) ≤ |(k : ℚ) - n / 10 ^ 6| := by
    intro k
    have hne : k * 10 ^ 6 - n ≠ 0 := by omega
    have hone : (1 : ℚ) ≤ |(k : ℚ) * 10 ^ 6 - n| := by exact_mod_cast Int.one_le_abs hne
    have hscale : (k : ℚ) * 10 ^ 6 - n = (k - n / 10 ^ 6) * 10 ^ 6 := by
      rw [sub_mul, div_mul_cancel₀ _ (by positivity)]
    rw [hscale, abs_mul, abs_of_pos (by positivity : (0 : ℚ) < 10 ^ 6)] at hone
    norm_num at hone ⊢
    linarith
  have hmagnitude : ∀ k : Int, 1 / 2 ^ 52 < |(k : ℚ) - y.magnitude| := by
    intro k
    have := abs_sub_le (k : ℚ) y.magnitude (n / 10 ^ 6)
    have := hgap k
    norm_num at *
    linarith
  rcases y.toRat_eq_or with hy | hy
  · rw [hy]
    exact hmagnitude k
  · have := hmagnitude (-k)
    rwa [Int.cast_neg, ← abs_neg, neg_sub, sub_neg_eq_add, add_comm, ← sub_neg_eq_add, ← hy] at this

section Millionths

variable {n : Nat}

theorem millionths_bounds (h : ¬ x.NeedsExponent)
    (hn : roundDiv .even (x.numerator * Nat.pow 10 6) x.denominator = n) : 1 ≤ n ∧ n ≤ 10 ^ 15 := by
  have hrange := h
  rw [needsExponent_iff, not_or, not_lt, not_lt] at hrange
  obtain ⟨hlower, hupper⟩ := hrange
  have hhalf : 1 / 2 * 10 ^ (-6 : Int) < millionth.magnitude := by
    norm_num [magnitude, millionth]
  have herror := abs_roundDiv_sub_le .even (x.numerator * Nat.pow 10 6) x.denominator_pos
  rw [millionths_div, hn] at herror
  obtain ⟨herror_lower, herror_upper⟩ := abs_le.1 herror
  constructor
  · have : (0 : ℚ) < n := by
      norm_num at hhalf
      linarith
    exact_mod_cast this
  · have : (n : ℚ) < 10 ^ 15 + 1 := by linarith
    exact Nat.lt_succ_iff.1 (by exact_mod_cast this)

/-- Six decimals are read as the double nearest to them. -/
theorem TakesDecimals.exists_reread (h : x.TakesDecimals)
    (hn : roundDiv .even (x.numerator * Nat.pow 10 6) x.denominator = n) :
    ∃ y, x.reread = .finite y ∧ y.negative = x.negative ∧ y.IsNearest (n / 10 ^ 6) := by
  have hliteral : x.literal = decimalParts x.negative n none := by
    rw [literal, parts, if_neg h.not_agreesWith, if_neg h.not_nearFloor,
      if_neg h.not_needsExponent, hn]
  have hrounds := x.rounds_reread
  rw [hliteral, magnitude_millionthParts] at hrounds
  refine hrounds.exists_finite ?_
  obtain ⟨z, hz⟩ := exists_magnitude_eq_natCast (n := 10 ^ 9) (by decide)
  refine lt_of_le_of_lt ?_ z.magnitude_lt_overflow
  have hn_upper : (n : ℚ) ≤ 10 ^ 15 := by exact_mod_cast (millionths_bounds h.not_needsExponent hn).2
  rw [hz, div_le_iff₀ (by positivity)]
  push_cast
  linarith

/-- The double nearest to a number of millionths that is not whole is written with these six
decimals. -/
theorem takesDecimals_of_isNearest (hn_lower : 1 ≤ n) (hn_upper : n ≤ 10 ^ 15)
    (hwhole : n % 10 ^ 6 ≠ 0) (hy : y.IsNearest (n / 10 ^ 6)) :
    y.TakesDecimals ∧ roundDiv .even (y.numerator * Nat.pow 10 6) y.denominator = n := by
  have hn_lower' : (1 : ℚ) ≤ n := by exact_mod_cast hn_lower
  have hn_upper' : (n : ℚ) ≤ 10 ^ 15 := by exact_mod_cast hn_upper
  have hv_lower : (10 : ℚ) ^ (-6 : Int) ≤ n / 10 ^ 6 := by
    rw [zpow_neg, ← one_div]
    exact div_le_div_of_nonneg_right hn_lower' (by positivity)
  have hv_upper : (n : ℚ) / 10 ^ 6 ≤ 10 ^ 9 := by
    rw [div_le_iff₀ (by positivity)]
    linarith
  have hdistance : |y.magnitude - n / 10 ^ 6| ≤ 10 ^ 9 * 2 ^ (-52 : Int) := by
    have htiny : (2 : ℚ) ^ (-1022 : Int) ≤ 2 ^ (-20 : Int) :=
      zpow_le_zpow_right₀ one_le_two (by decide)
    have hlarge : (2 : ℚ) ^ (30 : Int) ≤ 2 ^ (1024 : Int) :=
      zpow_le_zpow_right₀ one_le_two (by decide)
    refine (hy.abs_sub_le (htiny.trans (le_trans (by norm_num) hv_lower))
      (hv_upper.trans_lt (lt_of_lt_of_le (by norm_num) hlarge))).trans ?_
    exact mul_le_mul_of_nonneg_right hv_upper (by positivity)
  obtain ⟨hagrees, hnear⟩ := not_agreesWith_of_lt
    (lt_abs_sub_of_millionths hwhole (hdistance.trans (by norm_num)))
  have hexponent : ¬ y.NeedsExponent := by
    obtain ⟨z, hz⟩ := exists_magnitude_eq_natCast (n := 10 ^ 9) (by decide)
    have hz' : z.magnitude = 10 ^ 9 := by rw [hz]; push_cast; rfl
    rw [needsExponent_iff, not_or, not_lt, not_lt]
    exact ⟨hy.ge_of_ge (millionth_lt.le.trans hv_lower), hz' ▸ hy.le_of_le (hz' ▸ hv_upper)⟩
  refine ⟨⟨hagrees _, fun h => hnear h.1, hexponent⟩, ?_⟩
  refine roundDiv_eq_of_abs_sub_lt .even y.denominator_pos ?_
  rw [millionths_div]
  have hscale : (n : ℚ) - y.magnitude * 10 ^ 6 = -((y.magnitude - n / 10 ^ 6) * 10 ^ 6) := by
    rw [sub_mul, div_mul_cancel₀ _ (by positivity), neg_sub]
  rw [hscale, abs_neg, abs_mul, abs_of_pos (by positivity : (0 : ℚ) < 10 ^ 6)]
  calc |y.magnitude - n / 10 ^ 6| * 10 ^ 6 ≤ 10 ^ 9 * 2 ^ (-52 : Int) * 10 ^ 6 :=
        mul_le_mul_of_nonneg_right hdistance (by positivity)
    _ < 1 / 2 := by norm_num

/-- Six decimals stay, unless they are all zero and a whole number is read. -/
theorem TakesDecimals.settles (hx : x.TakesDecimals) : ∃ y, x.reread = .finite y ∧ y.Settled := by
  obtain ⟨n, hn⟩ : ∃ n, roundDiv .even (x.numerator * Nat.pow 10 6) x.denominator = n := ⟨_, rfl⟩
  obtain ⟨hn_lower, hn_upper⟩ := millionths_bounds hx.not_needsExponent hn
  obtain ⟨y, hread, hnegative, hnearest⟩ := hx.exists_reread hn
  by_cases hwhole : n % 10 ^ 6 = 0
  · obtain ⟨k, rfl⟩ := Nat.dvd_of_mod_eq_zero hwhole
    have hk : ((10 ^ 6 * k : Nat) : ℚ) / 10 ^ 6 = k := by
      rw [div_eq_iff (by positivity)]
      push_cast
      ring
    obtain ⟨z, hz⟩ := exists_magnitude_eq_natCast (show k < 2 ^ 53 by omega)
    rw [hk] at hnearest
    exact ⟨y, hread, settled_of_magnitude_eq (hnearest.eq_of_magnitude_eq hz)⟩
  · obtain ⟨hy, hn'⟩ := takesDecimals_of_isNearest hn_lower hn_upper hwhole hnearest
    have hsettled : x.Settled := by
      refine ⟨y, hread, ?_⟩
      rw [hx.written_eq, hy.written_eq, hnegative, sixDecimals_congr (hn'.trans hn.symm)]
    exact hsettled.exists_reread

end Millionths

/-! ## All numbers -/

/-- **Numbers settle after one reading.** The text of a double is read as a double whose text does
not change any more. -/
theorem settles (x : FiniteDouble) : ∃ y, x.reread = .finite y ∧ y.Settled := by
  by_cases hwhole : ∃ k : Int, x.toRat = k
  · obtain ⟨k, hk⟩ := hwhole
    exact (settled_of_whole hk).exists_reread
  have hfraction := magnitude_lt_of_not_whole (not_exists.1 hwhole)
  by_cases hagrees : x.AgreesWith (Double.finite x).toInt32
  · exact (settled_of_agreesWith hagrees).exists_reread
  by_cases hfloor : x.NearFloor ∧ x.BelowWholeLimit
  · exact (settled_of_nearFloor hagrees hfloor).exists_reread
  by_cases hexponent : x.NeedsExponent
  · have hx : x.TakesExponent := ⟨hagrees, hfloor, hexponent⟩
    rcases needsExponent_iff.1 hexponent with hsmall | hlarge
    · exact hx.settles_of_small hsmall
    · exact hx.settles_of_large hlarge hfraction
  · exact TakesDecimals.settles ⟨hagrees, hfloor, hexponent⟩

end LinkedJson.FiniteDouble
