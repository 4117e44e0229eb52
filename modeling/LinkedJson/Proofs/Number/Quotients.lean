import LinkedJson.Number.Text
import Mathlib.Algebra.Order.Field.Power
import Mathlib.Algebra.Order.Field.Rat
import Mathlib.Tactic.FieldSimp
import Mathlib.Tactic.Linarith
import Mathlib.Tactic.Positivity
import Mathlib.Tactic.Ring
import Mathlib.Tactic.GCongr

/-!
# Rounded quotients

What the exact arithmetic on naturals means for quotients: `roundDiv` is a nearest whole number
(`abs_roundDiv_sub_le`) and the even one of two (`even_roundDiv`), and `floorLog2` and `floorLog10`
are the exponents of the powers just below.
-/

namespace LinkedJson

variable {num den : Nat}

/-- A power of a base moves between numerator and denominator. -/
theorem cast_scaled_div (num den : Nat) {b : Nat} (hb : 0 < b) (q : Int) :
    ((num * Nat.pow b (-q).toNat : Nat) : ℚ) / (den * Nat.pow b q.toNat : Nat) =
      num / den / (b : ℚ) ^ q := by
  have hne : (b : ℚ) ≠ 0 := by positivity
  simp only [Nat.pow_eq, Nat.cast_mul, Nat.cast_pow]
  rcases Int.eq_nat_or_neg q with ⟨n, rfl | rfl⟩
  · rw [Int.toNat_neg_natCast, Int.toNat_natCast, pow_zero, mul_one, zpow_natCast, div_div]
  · rw [neg_neg, Int.toNat_neg_natCast, Int.toNat_natCast, pow_zero, mul_one, zpow_neg, zpow_natCast,
      div_inv_eq_mul, div_mul_eq_mul_div]

/-! ## The nearest whole number -/

/-- Where a quotient lies between the whole numbers around it, and what it is rounded to. -/
theorem roundDiv_cases (tie : Tie) (num : Nat) (hden : 0 < den) :
    ∃ (whole : Nat) (part : ℚ), (num : ℚ) / den = whole + part ∧ 0 ≤ part ∧ part < 1 ∧
      ((roundDiv tie num den = whole ∧ part ≤ 1 / 2) ∨
        (roundDiv tie num den = whole + 1 ∧ 1 / 2 ≤ part)) ∧
      (part = 1 / 2 → tie = .even → roundDiv tie num den % 2 = 0) := by
  have hpos : (0 : ℚ) < den := by exact_mod_cast hden
  have hsum : (num : ℚ) = den * (num / den : Nat) + (num % den : Nat) := by
    exact_mod_cast (Nat.div_add_mod num den).symm
  have hmod : ((num % den : Nat) : ℚ) < den := by exact_mod_cast Nat.mod_lt num hden
  have hhalf : ((num % den : Nat) : ℚ) / den ≤ 1 / 2 ↔ 2 * (num % den) ≤ den := by
    rw [div_le_div_iff₀ hpos two_pos, one_mul, mul_comm]
    exact_mod_cast Iff.rfl
  have hhalf' : 1 / 2 ≤ ((num % den : Nat) : ℚ) / den ↔ den ≤ 2 * (num % den) := by
    rw [div_le_div_iff₀ two_pos hpos, one_mul, mul_comm]
    exact_mod_cast Iff.rfl
  refine ⟨num / den, ((num % den : Nat) : ℚ) / den, ?_, by positivity, ?_, ?_, ?_⟩
  · rw [hsum, add_div, mul_div_cancel_left₀ _ hpos.ne']
  · rwa [div_lt_one hpos]
  · rw [hhalf, hhalf']
    unfold roundDiv
    simp only
    split
    · exact .inl ⟨rfl, by omega⟩
    · split
      · exact .inr ⟨rfl, by omega⟩
      · cases tie with
        | up => exact .inr ⟨rfl, by omega⟩
        | even =>
          simp only
          split
          · exact .inl ⟨rfl, by omega⟩
          · exact .inr ⟨rfl, by omega⟩
  · intro hpart htie
    subst htie
    have h := hhalf.1 hpart.le
    have h' := hhalf'.1 hpart.ge
    unfold roundDiv
    simp only [if_neg (Nat.not_lt.2 h'), if_neg (Nat.not_lt.2 h)]
    split <;> omega

/-- Rounding a quotient errs by at most a half. -/
theorem abs_roundDiv_sub_le (tie : Tie) (num : Nat) (hden : 0 < den) :
    |(roundDiv tie num den : ℚ) - num / den| ≤ 1 / 2 := by
  obtain ⟨whole, part, hsum, hnonneg, hlt, ⟨hr, hpart⟩ | ⟨hr, hpart⟩, -⟩ :=
    roundDiv_cases tie num hden
  · rw [hsum, hr, abs_le]
    constructor <;> linarith
  · rw [hsum, hr, Nat.cast_add, Nat.cast_one, abs_le]
    constructor <;> linarith

/-- A half goes to the even neighbour. -/
theorem even_roundDiv (num : Nat) (hden : 0 < den)
    (h : |(roundDiv .even num den : ℚ) - num / den| = 1 / 2) : roundDiv .even num den % 2 = 0 := by
  obtain ⟨whole, part, hsum, hnonneg, hlt, hr, htie⟩ := roundDiv_cases .even num hden
  refine htie ?_ rfl
  rcases hr with ⟨hr, hpart⟩ | ⟨hr, hpart⟩
  · rw [hsum, hr, sub_add_cancel_left, abs_neg, abs_of_nonneg hnonneg] at h
    exact h
  · rw [hsum, hr, Nat.cast_add, Nat.cast_one, add_sub_add_left_eq_sub,
      abs_of_nonneg (by linarith)] at h
    linarith

/-- Another whole number than one that is off by at most a half is off by at least a half. -/
theorem half_le_abs_sub {n : Nat} {v : ℚ} (h : |(n : ℚ) - v| ≤ 1 / 2) {m : Int} (hm : m ≠ n) :
    1 / 2 ≤ |(m : ℚ) - v| := by
  have hgap : (1 : ℚ) ≤ |(m : ℚ) - n| := by
    have : (1 : Int) ≤ |m - n| := Int.one_le_abs (sub_ne_zero.2 hm)
    exact_mod_cast this
  have := abs_sub_le (m : ℚ) v n
  rw [abs_sub_comm v] at this
  linarith

/-- A whole number that is nearer than a half is the nearest. -/
theorem roundDiv_eq_of_abs_sub_lt (tie : Tie) (hden : 0 < den) {n : Nat}
    (h : |(n : ℚ) - num / den| < 1 / 2) : roundDiv tie num den = n := by
  by_contra hne
  have hfar : 1 / 2 ≤ |((n : Int) : ℚ) - num / den| :=
    half_le_abs_sub (abs_roundDiv_sub_le tie num hden) (by exact_mod_cast Ne.symm hne)
  exact absurd h (not_lt.2 hfar)

/-- Rounding does not leave the side of a whole number on which a quotient is. -/
theorem le_roundDiv (tie : Tie) (hden : 0 < den) {n : Nat} (h : (n : ℚ) ≤ num / den) :
    n ≤ roundDiv tie num den := by
  have hlower := (abs_le.1 (abs_roundDiv_sub_le tie num hden)).1
  have : (n : ℚ) < roundDiv tie num den + 1 := by linarith
  exact Nat.lt_succ_iff.1 (by exact_mod_cast this)

theorem roundDiv_le (tie : Tie) (hden : 0 < den) {n : Nat} (h : (num : ℚ) / den ≤ n) :
    roundDiv tie num den ≤ n := by
  have hupper := (abs_le.1 (abs_roundDiv_sub_le tie num hden)).2
  have : (roundDiv tie num den : ℚ) < n + 1 := by linarith
  exact Nat.lt_succ_iff.1 (by exact_mod_cast this)

/-- What is not halfway between two whole numbers is nearer than a half to the nearest one. -/
theorem abs_roundDiv_sub_lt (tie : Tie) (hden : 0 < den)
    (h : ∀ n : Nat, (num : ℚ) / den ≠ n + 1 / 2) :
    |(roundDiv tie num den : ℚ) - num / den| < 1 / 2 := by
  obtain ⟨whole, part, hsum, hnonneg, hlt, hr, -⟩ := roundDiv_cases tie num hden
  have hpart : part ≠ 1 / 2 := by
    rintro rfl
    exact h whole hsum
  rw [hsum, abs_lt]
  rcases hr with ⟨hr, hle⟩ | ⟨hr, hle⟩
  · have := lt_of_le_of_ne hle hpart
    rw [hr]
    constructor <;> linarith
  · have := lt_of_le_of_ne hle hpart.symm
    rw [hr]
    push_cast
    constructor <;> linarith

/-- Off the halves, the rule for halves does not matter. -/
theorem roundDiv_congr (tie tie' : Tie) (hden : 0 < den)
    (h : ∀ n : Nat, (num : ℚ) / den ≠ n + 1 / 2) : roundDiv tie num den = roundDiv tie' num den :=
  roundDiv_eq_of_abs_sub_lt tie hden (abs_roundDiv_sub_lt tie' hden h)

/-- Halfway between two whole numbers the rule decides. -/
theorem roundDiv_of_half (hden : 0 < den) {n : Nat} (h : (num : ℚ) / den = n + 1 / 2) :
    roundDiv .up num den = n + 1 ∧
      roundDiv .even num den = if n % 2 = 0 then n else n + 1 := by
  have hpos : (0 : ℚ) < den := by exact_mod_cast hden
  have hnum : 2 * num = 2 * (n * den) + den := by
    rw [div_eq_iff hpos.ne'] at h
    have : (2 : ℚ) * num = 2 * (n * den) + den := by linarith
    exact_mod_cast this
  have hwhole : num / den = n :=
    Nat.div_eq_of_lt_le (by omega) (by rw [Nat.succ_mul]; omega)
  have hrest : 2 * (num % den) = den := by
    have := Nat.div_add_mod' num den
    rw [hwhole] at this
    omega
  unfold roundDiv
  simp only [hwhole, hrest, lt_self_iff_false, if_false, and_self]

/-- Powers of two do not change by which power of five a number is divisible. -/
theorem five_pow_dvd {m b k : Nat} {s t : Int} (h : (m : ℚ) * 2 ^ s = b * 5 ^ k * 2 ^ t) :
    5 ^ k ∣ m := by
  obtain ⟨a, ha⟩ : ∃ a : Nat, s + (s.natAbs + t.natAbs) = a :=
    ⟨(s + (s.natAbs + t.natAbs)).toNat, by omega⟩
  obtain ⟨c, hc⟩ : ∃ c : Nat, t + (s.natAbs + t.natAbs) = c :=
    ⟨(t + (s.natAbs + t.natAbs)).toNat, by omega⟩
  have hnat : m * 2 ^ a = b * 5 ^ k * 2 ^ c := by
    have hscaled := congrArg (· * (2 : ℚ) ^ ((s.natAbs : Int) + t.natAbs)) h
    simp only [mul_assoc, ← zpow_add₀ (two_ne_zero (α := ℚ)), ha, hc, zpow_natCast] at hscaled
    rw [mul_assoc]
    exact_mod_cast hscaled
  refine (Nat.Coprime.pow k a (by decide : Nat.Coprime 5 2)).dvd_of_dvd_mul_right ?_
  rw [hnat, mul_right_comm]
  exact Nat.dvd_mul_left _ _

/-! ## The power below -/

theorem floorLog2_bounds (hnum : 0 < num) (hden : 0 < den) :
    (2 : ℚ) ^ floorLog2 num den ≤ num / den ∧ (num : ℚ) / den < 2 ^ (floorLog2 num den + 1) := by
  have hpos : (0 : ℚ) < den := by exact_mod_cast hden
  have hnum_le : (2 : ℚ) ^ (num.log2 : Int) ≤ num := by
    exact_mod_cast Nat.log2_self_le hnum.ne'
  have hnum_lt : (num : ℚ) < 2 ^ ((num.log2 : Int) + 1) := by
    exact_mod_cast (Nat.lt_log2_self : num < 2 ^ (num.log2 + 1))
  have hden_le : (2 : ℚ) ^ (den.log2 : Int) ≤ den := by
    exact_mod_cast Nat.log2_self_le hden.ne'
  have hden_lt : (den : ℚ) < 2 ^ ((den.log2 : Int) + 1) := by
    exact_mod_cast (Nat.lt_log2_self : den < 2 ^ (den.log2 + 1))
  have hupper : (num : ℚ) / den < 2 ^ ((num.log2 : Int) - den.log2 + 1) := by
    rw [div_lt_iff₀ hpos]
    calc (num : ℚ) < 2 ^ ((num.log2 : Int) - den.log2 + 1) * 2 ^ (den.log2 : Int) := by
          rwa [← zpow_add₀ two_ne_zero, sub_add_eq_add_sub, sub_add_cancel]
      _ ≤ _ := by gcongr
  have hlower : (2 : ℚ) ^ ((num.log2 : Int) - den.log2 - 1) ≤ num / den := by
    rw [le_div_iff₀ hpos]
    calc (2 : ℚ) ^ ((num.log2 : Int) - den.log2 - 1) * den
        ≤ 2 ^ ((num.log2 : Int) - den.log2 - 1) * 2 ^ ((den.log2 : Int) + 1) := by gcongr
      _ = 2 ^ (num.log2 : Int) := by
          rw [← zpow_add₀ two_ne_zero]
          congr 1
          ring
      _ ≤ num := hnum_le
  have htest : ∀ e : Int, den * Nat.pow 2 e.toNat ≤ num * Nat.pow 2 (-e).toNat ↔
      (2 : ℚ) ^ e ≤ num / den := by
    intro e
    have hscaled : (0 : ℚ) < (den * Nat.pow 2 e.toNat : Nat) := by
      exact_mod_cast Nat.mul_pos hden (Nat.two_pow_pos _)
    rw [← Nat.cast_le (α := ℚ), ← one_le_div hscaled, cast_scaled_div num den two_pos, Nat.cast_two,
      le_div_iff₀ (by positivity), one_mul]
  unfold floorLog2
  simp only [htest]
  split
  · exact ⟨by assumption, hupper⟩
  · rename_i h
    rw [sub_add_cancel]
    exact ⟨hlower, lt_of_not_ge h⟩

theorem digitCount_bounds {n : Nat} (hn : 0 < n) :
    10 ^ (Decimal.digitCount n - 1) ≤ n ∧ n < 10 ^ Decimal.digitCount n := by
  have hle : ∀ k, 0 < k → (Decimal.digitCount n ≤ k ↔ n < 10 ^ k) :=
    fun k hk => Nat.length_toDigits_le_iff (by decide) hk
  refine ⟨?_, (hle _ Nat.length_toDigits_pos).1 (Nat.le_refl _)⟩
  rcases Nat.eq_zero_or_pos (Decimal.digitCount n - 1) with hzero | hpos
  · rw [hzero]
    exact hn
  · have := mt (hle _ hpos).2
    omega

theorem floorLog10_bounds (hnum : 0 < num) (hden : 0 < den) :
    (10 : ℚ) ^ NumberText.floorLog10 num den ≤ num / den ∧
      (num : ℚ) / den < 10 ^ (NumberText.floorLog10 num den + 1) := by
  have hpos : (0 : ℚ) < den := by exact_mod_cast hden
  have hnum_pos : (0 : ℚ) < num := by exact_mod_cast hnum
  have hcount : ∀ n, 1 ≤ Decimal.digitCount n := fun n => Nat.length_toDigits_pos
  unfold NumberText.floorLog10
  split
  · rename_i hle
    obtain ⟨hlower, hupper⟩ := digitCount_bounds (Nat.div_pos hle hden)
    generalize hk : Decimal.digitCount (num / den) = k at *
    have := hcount (num / den)
    rw [Nat.le_div_iff_mul_le hden] at hlower
    rw [Nat.div_lt_iff_lt_mul hden] at hupper
    rw [le_div_iff₀ hpos, div_lt_iff₀ hpos, sub_add_cancel, zpow_natCast,
      show ((k : Int) - 1) = ((k - 1 : Nat) : Int) by omega, zpow_natCast]
    exact ⟨by exact_mod_cast hlower, by exact_mod_cast hupper⟩
  · rename_i hlt
    have hquotient : 0 < (den - 1) / num := Nat.div_pos (by omega) hnum
    obtain ⟨hlower, hupper⟩ := digitCount_bounds hquotient
    generalize hk : Decimal.digitCount ((den - 1) / num) = k at *
    have := hcount ((den - 1) / num)
    rw [Nat.le_div_iff_mul_le hnum] at hlower
    rw [Nat.div_lt_iff_lt_mul hnum] at hupper
    have hle : den ≤ 10 ^ k * num := by omega
    have hgt : 10 ^ (k - 1) * num < den := by omega
    rw [le_div_iff₀ hpos, div_lt_iff₀ hpos, zpow_neg, zpow_natCast,
      show -(k : Int) + 1 = -((k - 1 : Nat) : Int) by omega, zpow_neg, zpow_natCast,
      inv_mul_le_iff₀ (by positivity), lt_inv_mul_iff₀ (by positivity)]
    exact ⟨by exact_mod_cast hle, by exact_mod_cast hgt⟩

end LinkedJson
