import LinkedJson.Proofs.Number.Quotients
import Mathlib.Data.Rat.Floor

/-!
# The nearest double

A magnitude is rounded to a double as the standard of binary floating point has it
(`Double.Rounds`): no finite double is nearer, of two that are as near the one with the even
significand is taken, and from `Double.overflow` on the result is infinite. Every magnitude is
rounded to exactly one double of a sign (`Double.rounds_iff`), and that is what `Double.ofRatio`
computes.
-/

namespace LinkedJson

/-- The magnitude as a rational number. -/
def FiniteDouble.magnitude (x : FiniteDouble) : ℚ :=
  x.significand * 2 ^ x.exponent

/-- No finite double is nearer to `v`, and none of another magnitude is as near unless the
significand is even. -/
structure FiniteDouble.IsNearest (x : FiniteDouble) (v : ℚ) : Prop where
  le : ∀ y : FiniteDouble, |x.magnitude - v| ≤ |y.magnitude - v|
  even : ∀ y : FiniteDouble, y.magnitude ≠ x.magnitude →
    |y.magnitude - v| = |x.magnitude - v| → x.significand % 2 = 0

/-- The first magnitude that is rounded to an infinity: halfway between the greatest finite double
and the power of two above it. -/
def Double.overflow : ℚ :=
  2 ^ (1024 : Int) - 2 ^ (970 : Int)

/-- A magnitude `v` with a sign is rounded to a double: to the nearest one, ties to even. -/
def Double.Rounds (negative : Bool) (v : ℚ) : Double → Prop
  | .finite x => v < overflow ∧ x.negative = negative ∧ x.IsNearest v
  | .infinite sign => overflow ≤ v ∧ sign = negative
  | .nan => False

namespace FiniteDouble

variable {x y : FiniteDouble} {v : ℚ} {q : Int}

theorem canonical_iff {m : Nat} {q : Int} : Format.double.Canonical m q ↔
    m < 2 ^ 53 ∧ -1074 ≤ q ∧ q ≤ 971 ∧ (2 ^ 52 ≤ m ∨ q = -1074) :=
  Iff.rfl

theorem magnitude_nonneg (x : FiniteDouble) : 0 ≤ x.magnitude := by
  unfold magnitude
  positivity

theorem numerator_div_denominator (x : FiniteDouble) :
    (x.numerator : ℚ) / x.denominator = x.magnitude := by
  have h := cast_scaled_div x.significand 1 two_pos (-x.exponent)
  rw [neg_neg, one_mul, Nat.cast_one, div_one, zpow_neg, div_inv_eq_mul] at h
  exact h

/-- A double of at least the exponent `q` is a whole number of units `2 ^ q`. -/
theorem exists_magnitude_eq (h : q ≤ x.exponent) : ∃ k : Nat, x.magnitude = k * 2 ^ q := by
  obtain ⟨n, hn⟩ : ∃ n : Nat, x.exponent = q + n := ⟨(x.exponent - q).toNat, by omega⟩
  refine ⟨x.significand * 2 ^ n, ?_⟩
  rw [magnitude, hn, zpow_add₀ two_ne_zero, zpow_natCast]
  push_cast
  ring

/-- A double of a lower exponent than `q` has no more than 52 bits in units `2 ^ q`. -/
theorem magnitude_lt (h : x.exponent < q) : x.magnitude < 2 ^ 52 * 2 ^ q := by
  have hlt : (x.significand : ℚ) < 2 ^ 53 := by exact_mod_cast (canonical_iff.1 x.canonical).1
  calc x.magnitude < 2 ^ 53 * 2 ^ x.exponent := by
        unfold magnitude
        gcongr
    _ ≤ 2 ^ 53 * 2 ^ (q - 1) := by
        gcongr
        · norm_num
        · omega
    _ = 2 ^ 52 * 2 ^ q := by
        rw [zpow_sub₀ two_ne_zero, zpow_one]
        ring

/-- A double of a lower exponent is below the other one. -/
theorem magnitude_lt_magnitude (h : x.exponent < y.exponent) : x.magnitude < y.magnitude := by
  have hfull : (2 : ℚ) ^ 52 ≤ y.significand := by
    have := canonical_iff.1 x.canonical
    have := canonical_iff.1 y.canonical
    exact_mod_cast (by omega : 2 ^ 52 ≤ y.significand)
  refine (magnitude_lt h).trans_le ?_
  unfold magnitude
  gcongr

/-- Canonical pairs of the same magnitude are the same. -/
theorem eq_of_magnitude_eq (h : x.magnitude = y.magnitude) :
    x.significand = y.significand ∧ x.exponent = y.exponent := by
  have hexponent : x.exponent = y.exponent :=
    le_antisymm (not_lt.1 fun hlt => (magnitude_lt_magnitude hlt).ne' h)
      (not_lt.1 fun hlt => (magnitude_lt_magnitude hlt).ne h)
  refine ⟨?_, hexponent⟩
  rw [magnitude, magnitude, hexponent] at h
  exact_mod_cast mul_right_cancel₀ (by positivity) h

/-- A whole number of units is nearest if it errs by at most half a unit and all doubles between
units lie far below. -/
theorem isNearest_of_units {m : Nat} (hm : x.magnitude = m * 2 ^ q)
    (hparity : m % 2 = 0 → x.significand % 2 = 0) (herror : |(m : ℚ) - v / 2 ^ q| ≤ 1 / 2)
    (htie : |(m : ℚ) - v / 2 ^ q| = 1 / 2 → m % 2 = 0)
    (hunits : q = -1074 ∨ 2 ^ 52 * 2 ^ q ≤ v) : x.IsNearest v := by
  have hunit : (0 : ℚ) < 2 ^ q := by positivity
  have hdistance : ∀ k : ℚ, |k * 2 ^ q - v| = |k - v / 2 ^ q| * 2 ^ q := by
    intro k
    rw [← abs_of_pos hunit, ← abs_mul, abs_of_pos hunit, sub_mul, div_mul_cancel₀ _ hunit.ne']
  -- another whole number errs by at least half a unit
  have hother : ∀ k : Nat, k ≠ m → 1 / 2 ≤ |(k : ℚ) - v / 2 ^ q| := by
    intro k hk
    have hgap : (1 : ℚ) ≤ |(k : ℚ) - m| := by
      have : (1 : Int) ≤ |(k : Int) - m| := Int.one_le_abs (by omega)
      exact_mod_cast this
    have := abs_sub_le (k : ℚ) (v / 2 ^ q) m
    rw [abs_sub_comm (v / 2 ^ q)] at this
    linarith
  have hcases : ∀ y : FiniteDouble, (∃ k : Nat, y.magnitude = k * 2 ^ q) ∨
      |x.magnitude - v| < |y.magnitude - v| := by
    intro y
    by_cases hy : q ≤ y.exponent
    · exact .inl (exists_magnitude_eq hy)
    · right
      have hbelow := magnitude_lt (not_le.1 hy)
      have hfull : 2 ^ 52 * 2 ^ q ≤ v := by
        refine hunits.resolve_left fun heq => ?_
        have := (canonical_iff.1 y.canonical).2.1
        omega
      have hle : |x.magnitude - v| ≤ |((2 ^ 52 : Nat) : ℚ) * 2 ^ q - v| := by
        rw [hm, hdistance, hdistance]
        refine mul_le_mul_of_nonneg_right ?_ hunit.le
        by_cases heq : 2 ^ 52 = m
        · rw [heq]
        · exact herror.trans (hother _ heq)
      refine hle.trans_lt ?_
      push_cast
      rw [abs_of_nonpos (by linarith), abs_of_neg (by linarith)]
      linarith
  constructor
  · intro y
    rcases hcases y with ⟨k, hk⟩ | hlt
    · rw [hm, hk, hdistance, hdistance]
      refine mul_le_mul_of_nonneg_right ?_ hunit.le
      by_cases heq : k = m
      · rw [heq]
      · exact herror.trans (hother k heq)
    · exact hlt.le
  · intro y hne heq
    rcases hcases y with ⟨k, hk⟩ | hlt
    · rw [hm, hk, hdistance, hdistance] at heq
      rw [hm, hk] at hne
      have hk_ne : k ≠ m := fun h => hne (by rw [h])
      have := mul_right_cancel₀ hunit.ne' heq
      exact hparity (htie (le_antisymm herror (this ▸ hother k hk_ne)))
    · exact absurd heq hlt.ne'

/-- What is at most half of the least double is rounded to zero. -/
theorem isNearest_zero (negative : Bool) (hnonneg : 0 ≤ v) (hle : v ≤ 1 / 2 * 2 ^ (-1074 : Int)) :
    (zero negative).IsNearest v := by
  have hzero : (zero negative).magnitude = 0 := by simp [magnitude, zero]
  refine ⟨fun y => ?_, fun _ _ _ => rfl⟩
  obtain ⟨k, hk⟩ := exists_magnitude_eq (canonical_iff.1 y.canonical).2.1
  rw [hzero, zero_sub, abs_neg, abs_of_nonneg hnonneg, hk]
  rcases Nat.eq_zero_or_pos k with rfl | hpos
  · rw [Nat.cast_zero, zero_mul, zero_sub, abs_neg, abs_of_nonneg hnonneg]
  · have hone : (1 : ℚ) ≤ k := by exact_mod_cast hpos
    have hunit : (0 : ℚ) < 2 ^ (-1074 : Int) := by positivity
    have : 1 * (2 : ℚ) ^ (-1074 : Int) ≤ k * 2 ^ (-1074 : Int) :=
      mul_le_mul_of_nonneg_right hone hunit.le
    exact le_trans (by linarith) (le_abs_self _)

/-- Nearest doubles have one magnitude. If there were two, the next double above the lower one would
have an odd significand and be as near. -/
theorem IsNearest.magnitude_eq {x y : FiniteDouble} (hx : x.IsNearest v) (hy : y.IsNearest v) :
    x.magnitude = y.magnitude := by
  have hdistance : |x.magnitude - v| = |y.magnitude - v| := le_antisymm (hx.le y) (hy.le x)
  have key : ∀ {x y : FiniteDouble}, x.IsNearest v → y.IsNearest v →
      |x.magnitude - v| = |y.magnitude - v| → ¬ x.magnitude < y.magnitude := by
    intro x y hx hy heq hlt
    have hx_even := hx.even y hlt.ne' heq.symm
    have hy_even := hy.even x hlt.ne heq
    obtain ⟨hbits, hleast, hgreatest, hfull⟩ := canonical_iff.1 x.canonical
    let z : FiniteDouble := ⟨false, x.significand + 1, x.exponent, canonical_iff.2 (by omega)⟩
    have hz : z.magnitude = x.magnitude + 2 ^ x.exponent := by
      simp only [z, magnitude]
      push_cast
      ring
    have hunit : (0 : ℚ) < 2 ^ x.exponent := by positivity
    have hexponent : x.exponent ≤ y.exponent :=
      not_lt.1 fun hexponent => (magnitude_lt_magnitude hexponent).not_gt hlt
    have hz_le : z.magnitude ≤ y.magnitude := by
      obtain ⟨k, hk⟩ := exists_magnitude_eq hexponent
      rw [hk, magnitude] at hlt
      have hk_gt : x.significand < k := by exact_mod_cast lt_of_mul_lt_mul_right hlt hunit.le
      rw [hk, hz, magnitude, ← add_one_mul]
      refine mul_le_mul_of_nonneg_right ?_ hunit.le
      exact_mod_cast hk_gt
    -- `v` is halfway between the two, so the double between them is `y`
    have hhalf : y.magnitude - v = v - x.magnitude := by
      rcases abs_eq_abs.1 heq with h | h <;> linarith
    have hz_distance := hx.le z
    rw [abs_of_nonpos (by linarith), le_abs] at hz_distance
    have hz_eq : z.magnitude = y.magnitude := by
      rcases hz_distance with h | h <;> linarith
    have := (eq_of_magnitude_eq hz_eq).1
    simp only [z] at this
    omega
  exact le_antisymm (not_lt.1 (key hy hx hdistance.symm)) (not_lt.1 (key hx hy hdistance))

end FiniteDouble

namespace Double

variable {negative : Bool} {v : ℚ} {num den : Nat}

/-- A magnitude is rounded to one double of a sign. -/
theorem Rounds.unique {d d' : Double} (h : Rounds negative v d) (h' : Rounds negative v d') :
    d = d' := by
  cases d with
  | nan => exact h.elim
  | infinite sign =>
    cases d' with
    | nan => exact h'.elim
    | infinite sign' => rw [h.2, h'.2]
    | finite y => exact absurd h'.1 (not_lt.2 h.1)
  | finite x =>
    cases d' with
    | nan => exact h'.elim
    | infinite sign => exact absurd h.1 (not_lt.2 h'.1)
    | finite y =>
      obtain ⟨-, hx, hnearest⟩ := h
      obtain ⟨-, hy, hnearest'⟩ := h'
      have hmagnitude := FiniteDouble.eq_of_magnitude_eq (hnearest.magnitude_eq hnearest')
      congr 1
      cases x
      cases y
      simp_all

theorem overflow_eq : overflow = (2 ^ 53 - 1 / 2) * 2 ^ (971 : Int) := by
  rw [overflow, show (1024 : Int) = 53 + 971 by rfl, show (971 : Int) = 970 + 1 by rfl,
    zpow_add₀ two_ne_zero, zpow_add_one₀ two_ne_zero]
  generalize (2 : ℚ) ^ (970 : Int) = p
  norm_num
  ring

theorem overflow_pos : 0 < overflow := by
  rw [overflow_eq]
  exact mul_pos (by norm_num) (by positivity)

/-- A magnitude overflows if its nearest number of units does. -/
theorem lt_overflow_iff {m : Nat} {q : Int} (hm : m ≤ 2 ^ 53) (hq : q ≤ 971 ∨ 2 ^ 52 * 2 ^ q ≤ v)
    (hupper : v < 2 ^ 53 * 2 ^ q) (herror : |(m : ℚ) - v / 2 ^ q| ≤ 1 / 2)
    (htie : |(m : ℚ) - v / 2 ^ q| = 1 / 2 → m % 2 = 0) :
    v < overflow ↔ q < 971 ∨ q = 971 ∧ m ≠ 2 ^ 53 := by
  rw [overflow_eq]
  rcases lt_trichotomy q 971 with hlt | rfl | hgt
  · refine iff_of_true (hupper.trans ?_) (.inl hlt)
    calc (2 : ℚ) ^ 53 * 2 ^ q ≤ 2 ^ 53 * 2 ^ (970 : Int) := by
          refine mul_le_mul_of_nonneg_left (zpow_le_zpow_right₀ one_le_two ?_) (by positivity)
          omega
      _ = 2 ^ 52 * 2 ^ (971 : Int) := by
          rw [show (971 : Int) = 970 + 1 by rfl, zpow_add_one₀ two_ne_zero]
          ring
      _ < _ := by
          refine mul_lt_mul_of_pos_right ?_ (by positivity)
          norm_num
  · simp only [lt_irrefl, true_and, false_or]
    rw [← div_lt_iff₀ (by positivity)]
    generalize v / 2 ^ (971 : Int) = u at *
    obtain ⟨hlower, hupper⟩ := abs_le.1 herror
    constructor
    · rintro hu rfl
      push_cast at hlower hupper
      linarith
    · intro hne
      have hm' : (m : ℚ) + 1 ≤ 2 ^ 53 := by
        exact_mod_cast Nat.lt_of_le_of_ne hm hne
      refine lt_of_le_of_ne (by linarith) ?_
      rintro rfl
      have hm_eq : (m : ℚ) = 2 ^ 53 - 1 := by linarith
      have hodd : m % 2 = 0 := htie (by rw [hm_eq]; norm_num)
      have : m + 1 = 2 ^ 53 := by
        have : (m : ℚ) + 1 = 2 ^ 53 := by linarith
        exact_mod_cast this
      omega
  · refine iff_of_false (not_lt.2 ?_) (by omega)
    calc (2 ^ 53 - 1 / 2) * (2 : ℚ) ^ (971 : Int) ≤ 2 ^ 53 * 2 ^ (971 : Int) := by
          refine mul_le_mul_of_nonneg_right ?_ (by positivity)
          norm_num
      _ = 2 ^ 52 * 2 ^ (972 : Int) := by
          rw [show (972 : Int) = 971 + 1 by rfl, zpow_add_one₀ two_ne_zero]
          ring
      _ ≤ 2 ^ 52 * 2 ^ q := by
          refine mul_le_mul_of_nonneg_left (zpow_le_zpow_right₀ one_le_two ?_) (by positivity)
          omega
      _ ≤ v := hq.resolve_left (by omega)

/-- The units that `Format.nearest` counts, and how many it takes of them. -/
theorem exists_nearest_eq (hnum : 0 < num) (hden : 0 < den) :
    ∃ (m : Nat) (q : Int), Format.double.nearest num den =
        (if m = 2 ^ 53 then (2 ^ 52, q + 1) else (m, q)) ∧
      -1074 ≤ q ∧ (q = -1074 ∨ 2 ^ 52 * 2 ^ q ≤ (num : ℚ) / den) ∧
      (num : ℚ) / den < 2 ^ 53 * 2 ^ q ∧
      |(m : ℚ) - num / den / 2 ^ q| ≤ 1 / 2 ∧
      (|(m : ℚ) - num / den / 2 ^ q| = 1 / 2 → m % 2 = 0) := by
  obtain ⟨hlower, hupper⟩ := floorLog2_bounds hnum hden
  generalize hq : Format.double.lastBit num den = q
  have hq_cases : q = max (-1074) (floorLog2 num den - 52) := hq.symm
  have hscaled : 0 < den * Nat.pow 2 q.toNat := Nat.mul_pos hden (Nat.two_pow_pos _)
  have hquotient := cast_scaled_div num den two_pos q
  rw [Nat.cast_two] at hquotient
  refine ⟨roundDiv .even (num * Nat.pow 2 (-q).toNat) (den * Nat.pow 2 q.toNat), q, ?_, by omega,
    ?_, ?_, ?_, ?_⟩
  · simp only [Format.nearest, if_neg hnum.ne', hq]
    rfl
  · refine (em (q = -1074)).imp_right fun hne => ?_
    refine le_trans (le_of_eq ?_) hlower
    rw [show floorLog2 num den = 52 + q by omega, zpow_add₀ two_ne_zero]
    rfl
  · refine hupper.trans_le ?_
    rw [show (2 : ℚ) ^ 53 = 2 ^ (53 : Int) from rfl, ← zpow_add₀ two_ne_zero]
    exact zpow_le_zpow_right₀ one_le_two (by omega)
  · rw [← hquotient]
    exact abs_roundDiv_sub_le _ _ hscaled
  · rw [← hquotient]
    exact even_roundDiv _ hscaled

/-- **Rounding a quotient gives the nearest double.** -/
theorem rounds_ofRatio (negative : Bool) (num : Nat) (hden : 0 < den) :
    Rounds negative (num / den) (ofRatio negative num den) := by
  rcases Nat.eq_zero_or_pos num with rfl | hnum
  · have hzero : ofRatio negative 0 den = .finite (FiniteDouble.zero negative) := rfl
    rw [hzero, Nat.cast_zero, zero_div]
    exact ⟨overflow_pos, rfl, FiniteDouble.isNearest_zero negative le_rfl (by positivity)⟩
  obtain ⟨m, q, hnearest, hleast, hunits, hupper, herror, htie⟩ := exists_nearest_eq hnum hden
  generalize (num : ℚ) / den = v at *
  have hunit : (0 : ℚ) < 2 ^ q := by positivity
  have hu_upper : v / 2 ^ q < 2 ^ 53 := (div_lt_iff₀ hunit).2 hupper
  obtain ⟨herror_lower, herror_upper⟩ := abs_le.1 herror
  have hm_le : m ≤ 2 ^ 53 := by
    have : (m : ℚ) < 2 ^ 53 + 1 := by linarith
    exact Nat.lt_succ_iff.1 (by exact_mod_cast this)
  have hm_ge : q = -1074 ∨ 2 ^ 52 ≤ m := by
    refine hunits.imp_right fun hle => ?_
    have : (2 : ℚ) ^ 52 ≤ v / 2 ^ q := (le_div_iff₀ hunit).2 hle
    have : (2 : ℚ) ^ 52 < m + 1 := by linarith
    exact Nat.lt_succ_iff.1 (by exact_mod_cast this)
  have hoverflow := lt_overflow_iff hm_le (hunits.imp_left (by omega)) hupper herror htie
  have hcarry_even : 2 ^ 52 % 2 = 0 := by decide
  unfold ofRatio
  rw [hnearest]
  by_cases hcarry : m = 2 ^ 53
  · simp only [if_pos hcarry]
    split
    · rename_i hcanonical
      obtain ⟨-, -, hq, -⟩ := FiniteDouble.canonical_iff.1 hcanonical
      refine ⟨hoverflow.2 (.inl (by omega)), rfl,
        FiniteDouble.isNearest_of_units ?_ (fun _ => hcarry_even) herror htie hunits⟩
      simp only [FiniteDouble.magnitude, hcarry]
      rw [zpow_add_one₀ two_ne_zero]
      push_cast
      ring
    · rename_i hcanonical
      refine ⟨not_lt.1 fun hlt => hcanonical ?_, rfl⟩
      have := hoverflow.1 hlt
      exact FiniteDouble.canonical_iff.2 (by omega)
  · simp only [if_neg hcarry]
    split
    · rename_i hcanonical
      obtain ⟨-, -, hq, -⟩ := FiniteDouble.canonical_iff.1 hcanonical
      exact ⟨hoverflow.2 (by omega), rfl,
        FiniteDouble.isNearest_of_units rfl id herror htie hunits⟩
    · rename_i hcanonical
      refine ⟨not_lt.1 fun hlt => hcanonical ?_, rfl⟩
      have := hoverflow.1 hlt
      exact FiniteDouble.canonical_iff.2 (by omega)

theorem rounds_iff {d : Double} (hden : 0 < den) :
    Rounds negative (num / den) d ↔ d = ofRatio negative num den := by
  constructor
  · intro h
    exact h.unique (rounds_ofRatio negative num hden)
  · rintro rfl
    exact rounds_ofRatio negative num hden

theorem exists_ratio (hv : 0 ≤ v) : ∃ num den : Nat, 0 < den ∧ v = num / den := by
  obtain ⟨num, hnum⟩ := Int.eq_ofNat_of_zero_le (Rat.num_nonneg.2 hv)
  refine ⟨num, v.den, v.den_pos, ?_⟩
  have h := Rat.num_div_den v
  rw [hnum] at h
  exact h.symm

end Double

/-! ## How far the nearest double is -/

namespace FiniteDouble

variable {x : FiniteDouble} {v : ℚ}

/-- What is a double is rounded to itself. -/
theorem IsNearest.eq_of_magnitude_eq {y : FiniteDouble} (hx : x.IsNearest v)
    (hy : y.magnitude = v) : x.magnitude = v := by
  have h := hx.le y
  rw [hy, sub_self, abs_zero] at h
  exact sub_eq_zero.1 (abs_nonpos_iff.1 h)

/-- Rounding does not leave the side of a double on which a magnitude is. -/
theorem IsNearest.le_of_le {y : FiniteDouble} (hx : x.IsNearest v) (hv : v ≤ y.magnitude) :
    x.magnitude ≤ y.magnitude := by
  by_contra hnot
  have h := hx.le y
  rw [abs_of_nonneg (by linarith), abs_of_nonneg (by linarith)] at h
  linarith

theorem IsNearest.ge_of_ge {y : FiniteDouble} (hx : x.IsNearest v) (hv : y.magnitude ≤ v) :
    y.magnitude ≤ x.magnitude := by
  by_contra hnot
  have h := hx.le y
  rw [abs_of_nonpos (by linarith), abs_of_nonpos (by linarith)] at h
  linarith

/-- The nearest double of a magnitude that is not tiny is off by less than its 52nd bit. -/
theorem IsNearest.abs_sub_le (hx : x.IsNearest v) (hlower : 2 ^ (-1022 : Int) ≤ v)
    (hupper : v < 2 ^ (1024 : Int)) : |x.magnitude - v| ≤ v * 2 ^ (-52 : Int) := by
  have hpos : 0 < v := lt_of_lt_of_le (by positivity) hlower
  obtain ⟨e, he_lower, he_upper⟩ : ∃ e : Int, (2 : ℚ) ^ e ≤ v ∧ v < 2 ^ (e + 1) := by
    obtain ⟨num, den, hden, rfl⟩ := Double.exists_ratio hpos.le
    have hden' : (0 : ℚ) < den := by exact_mod_cast hden
    have hnum : (0 : ℚ) < num := (div_pos_iff_of_pos_right hden').1 hpos
    exact ⟨_, floorLog2_bounds (by exact_mod_cast hnum) hden⟩
  have he_ge : -1022 < e + 1 := (zpow_lt_zpow_iff_right₀ one_lt_two).1 (hlower.trans_lt he_upper)
  have he_lt : e < 1024 := (zpow_lt_zpow_iff_right₀ one_lt_two).1 (he_lower.trans_lt hupper)
  have hunit : (0 : ℚ) < 2 ^ (e - 52) := by positivity
  -- the double below `v` of the exponent of `v`
  have hk_le : (⌊v / 2 ^ (e - 52)⌋₊ : ℚ) ≤ v / 2 ^ (e - 52) := Nat.floor_le (by positivity)
  have hk_lt := Nat.lt_floor_add_one (v / 2 ^ (e - 52))
  generalize ⌊v / 2 ^ (e - 52)⌋₊ = k at hk_le hk_lt
  rw [le_div_iff₀ hunit] at hk_le
  rw [div_lt_iff₀ hunit] at hk_lt
  have hk_lower : 2 ^ 52 ≤ k := by
    have : (2 : ℚ) ^ 52 * 2 ^ (e - 52) < (k + 1) * 2 ^ (e - 52) := by
      refine lt_of_le_of_lt (le_of_eq_of_le ?_ he_lower) hk_lt
      rw [← zpow_natCast (2 : ℚ) 52, ← zpow_add₀ two_ne_zero]
      congr 1
      omega
    have := lt_of_mul_lt_mul_right this hunit.le
    exact Nat.lt_succ_iff.1 (by exact_mod_cast this)
  have hk_upper : k < 2 ^ 53 := by
    have : (k : ℚ) * 2 ^ (e - 52) < 2 ^ 53 * 2 ^ (e - 52) := by
      refine lt_of_lt_of_eq (hk_le.trans_lt he_upper) ?_
      rw [← zpow_natCast (2 : ℚ) 53, ← zpow_add₀ two_ne_zero]
      congr 1
      omega
    have := lt_of_mul_lt_mul_right this hunit.le
    exact_mod_cast this
  have h := hx.le ⟨false, k, e - 52, canonical_iff.2 (by omega)⟩
  refine h.trans ?_
  simp only [magnitude]
  rw [abs_of_nonpos (by linarith)]
  calc -(k * 2 ^ (e - 52) - v) ≤ (2 : ℚ) ^ (e - 52) := by linarith
    _ = 2 ^ e * 2 ^ (-52 : Int) := by rw [← zpow_add₀ two_ne_zero]; rfl
    _ ≤ v * 2 ^ (-52 : Int) := mul_le_mul_of_nonneg_right he_lower (by positivity)

end FiniteDouble

/-! ## Decimals -/

namespace Decimal

/-- The magnitude as a rational number. -/
def magnitude (d : Decimal) : ℚ :=
  d.coefficient * 10 ^ d.exponent

theorem zpow_two_le {a b : Nat} (h : Nat.pow 2 a ≤ Nat.pow 10 b) :
    (2 : ℚ) ^ (a : Int) ≤ 10 ^ (b : Int) := by
  have := (Nat.cast_le (α := ℚ)).2 h
  rw [zpow_natCast, zpow_natCast]
  rwa [Nat.pow_eq, Nat.pow_eq, Nat.cast_pow, Nat.cast_pow] at this

theorem zpow_neg_ten_le {a b : Nat} (h : Nat.pow 2 a ≤ Nat.pow 10 b) :
    (10 : ℚ) ^ (-b : Int) ≤ 2 ^ (-a : Int) := by
  rw [zpow_neg, zpow_neg]
  exact inv_anti₀ (by positivity) (zpow_two_le h)

theorem magnitude_bounds {d : Decimal} (h : 0 < d.coefficient) :
    (10 : ℚ) ^ (d.exponent + digitCount d.coefficient - 1) ≤ d.magnitude ∧
      d.magnitude < 10 ^ (d.exponent + digitCount d.coefficient) := by
  obtain ⟨hlower, hupper⟩ := digitCount_bounds h
  have hcount : 1 ≤ digitCount d.coefficient := Nat.length_toDigits_pos
  have hunit : (0 : ℚ) < 10 ^ d.exponent := by positivity
  unfold magnitude
  constructor
  · rw [show d.exponent + digitCount d.coefficient - 1 =
        ((digitCount d.coefficient - 1 : Nat) : Int) + d.exponent by omega,
      zpow_add₀ (by norm_num), zpow_natCast]
    refine mul_le_mul_of_nonneg_right ?_ hunit.le
    exact_mod_cast hlower
  · rw [add_comm, zpow_add₀ (by norm_num), zpow_natCast]
    refine mul_lt_mul_of_pos_right ?_ hunit
    exact_mod_cast hupper

theorem magnitude_eq_div (d : Decimal) : d.magnitude =
    (d.coefficient * Nat.pow 10 d.exponent.toNat : Nat) / (Nat.pow 10 (-d.exponent).toNat : Nat) := by
  have h := cast_scaled_div d.coefficient 1 (b := 10) (by decide) (-d.exponent)
  rw [neg_neg, one_mul, Nat.cast_one, div_one, zpow_neg, div_inv_eq_mul] at h
  exact h.symm

/-- **The double of a decimal is the nearest one.** -/
theorem rounds_toDouble (d : Decimal) : Double.Rounds d.negative d.magnitude d.toDouble := by
  have hden : 0 < Nat.pow 10 (-d.exponent).toNat := Nat.pow_pos (by decide)
  have hratio := Double.rounds_ofRatio d.negative (d.coefficient * Nat.pow 10 d.exponent.toNat) hden
  rw [← magnitude_eq_div] at hratio
  unfold toDouble
  simp only
  split
  · rename_i hsmall
    have hle : d.magnitude ≤ 2 ^ (-1075 : Int) := by
      rcases Nat.eq_zero_or_pos d.coefficient with hzero | hpos
      · rw [magnitude, hzero, Nat.cast_zero, zero_mul]
        positivity
      · calc d.magnitude ≤ 10 ^ (d.exponent + digitCount d.coefficient) :=
              (magnitude_bounds hpos).2.le
          _ ≤ 10 ^ (-(324 : Nat) : Int) :=
              zpow_le_zpow_right₀ (by norm_num) (hsmall.resolve_left hpos.ne')
          _ ≤ 2 ^ (-(1075 : Nat) : Int) := zpow_neg_ten_le (by decide +kernel)
    refine ⟨hle.trans_lt ?_, rfl,
      FiniteDouble.isNearest_zero _ (by unfold magnitude; positivity) (hle.trans_eq ?_)⟩
    · rw [Double.overflow_eq]
      calc (2 : ℚ) ^ (-1075 : Int) < 1 * 2 ^ (971 : Int) := by
            rw [one_mul]
            exact zpow_lt_zpow_right₀ one_lt_two (by decide)
        _ ≤ _ := mul_le_mul_of_nonneg_right (by norm_num) (by positivity)
    · rw [show (-1075 : Int) = -1 + -1074 by rfl, zpow_add₀ two_ne_zero]
      norm_num
  · split
    · rename_i hlarge
      refine ⟨?_, rfl⟩
      calc Double.overflow ≤ 2 ^ ((1024 : Nat) : Int) := by
            rw [Double.overflow]
            exact sub_le_self _ (by positivity)
        _ ≤ 10 ^ ((309 : Nat) : Int) := zpow_two_le (by decide +kernel)
        _ ≤ 10 ^ (d.exponent + digitCount d.coefficient - 1) :=
            zpow_le_zpow_right₀ (by norm_num) (by omega)
        _ ≤ d.magnitude := (magnitude_bounds (by omega)).1
    · exact hratio

end Decimal

end LinkedJson
