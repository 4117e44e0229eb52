import LinkedJson.Proofs.Number.TextLength
import LinkedJson.Proofs.Writing.StrictText

/-!
# Scientific notation

No double that is written with an exponent is halfway between two numbers of seven digits
(`FiniteDouble.not_isSevenDigitHalf`). Above `10 ^ 9` such a half is whole, and its power of five
divides the significand of the double, so it is far below `wholeLimit` (`FiniteDouble.half_large`);
but a whole number below the limit is written with all its digits. Elsewhere a half has decimals,
and a power of five for each of them divides its odd numerator, so there are at most ten
(`FiniteDouble.half_small`), which is too few below `10 ^ -6`.

So the text is that of the one nearest number of seven digits, in the usual form
(`FiniteDouble.text_exponential`), and another rule for halves would not change it.
-/

namespace LinkedJson

/-! ## The form -/

namespace NumberLiteral

open Ascii

/-- An exponent as it is printed: a small mark, a sign, and two digits or more, which do not begin
with a zero if they are more than two. -/
structure ExponentPart.IsPrinted (e : ExponentPart) : Prop where
  mark : e.mark = 0x65
  sign : e.sign ≠ .none
  two_le : 2 ≤ e.digits.length
  leading : 2 < e.digits.length → ∀ b ∈ e.digits.head?, b ≠ zero

/-- One digit that is not zero, a point, six digits and an exponent. -/
structure Parts.IsScientific (p : Parts) : Prop where
  whole : ∃ b, p.whole = [b] ∧ b ≠ zero
  fraction : ∃ digits, p.fraction = some digits ∧ digits.length = 6
  exponent : ∃ e, p.exponent = some e ∧ e.IsPrinted

end NumberLiteral

namespace NumberText

open Ascii NumberLiteral

variable {n : Nat}

theorem length_encode_digits {cs : List Char} (h : ∀ c ∈ cs, c.isDigit = true) :
    (Utf8.encode (.ofList cs)).length = cs.length := by
  rw [encode_ofList_digits h, List.length_map]

theorem digits_exponentPart (e : Int) :
    (exponentPart e).digits = Utf8.encode (.ofList (padded 2 e.natAbs)) := by
  rw [exponentPart]

theorem sign_exponentPart (e : Int) :
    (exponentPart e).sign = if e < 0 then .minus else .plus := by
  rw [exponentPart]

theorem exponentPart_isPrinted (e : Int) : (exponentPart e).IsPrinted := by
  have hlength : (exponentPart e).digits.length = max 2 (Nat.toDigits 10 e.natAbs).length := by
    rw [digits_exponentPart, length_encode_digits isDigit_of_mem_padded, length_padded]
  constructor
  · rfl
  · rw [sign_exponentPart]
    split <;> simp
  · rw [hlength]
    exact le_max_left _ _
  · intro hlong
    rw [hlength] at hlong
    -- nothing was put in front of three digits
    have hdigits : padded 2 e.natAbs = Nat.toDigits 10 e.natAbs := by
      rw [padded, Nat.sub_eq_zero_of_le (by omega)]
      rfl
    rw [digits_exponentPart, hdigits]
    refine (Strict.leading_toDigits e.natAbs).resolve_left fun hzero => ?_
    have := congrArg List.length hzero
    rw [length_encode_digits isDigit_of_mem_toDigits, List.length_singleton] at this
    omega

theorem digitChar_ne_zero {d : Nat} : d < 10 → 0 < d → d.digitChar.toNat.toUInt8 ≠ zero := by
  revert d
  decide

/-- Seven digits and an exponent have the form. -/
theorem decimalParts_isScientific (negative : Bool) (hlower : 10 ^ 6 ≤ n) (hupper : n < 10 ^ 7)
    (e : Int) : (decimalParts negative n (some (exponentPart e))).IsScientific where
  whole := by
    have hlt : n / Nat.pow 10 6 < 10 := (Nat.div_lt_iff_lt_mul (by decide)).2 hupper
    have hpos : 0 < n / Nat.pow 10 6 := Nat.div_pos hlower (by decide)
    have hdigits : Utf8.encode (.ofList (Nat.toDigits 10 (n / Nat.pow 10 6))) =
        [(n / Nat.pow 10 6).digitChar.toNat.toUInt8] := by
      rw [encode_ofList_digits isDigit_of_mem_toDigits, Nat.toDigits_of_lt_base hlt]
      rfl
    exact ⟨_, hdigits, digitChar_ne_zero hlt hpos⟩
  fraction := ⟨_, rfl, length_encode_padded (by decide) (Nat.mod_lt n (by decide))⟩
  exponent := ⟨_, rfl, exponentPart_isPrinted e⟩

/-- The notation with an exponent under a rule for halves. -/
def exponentialBy (tie : Tie) (num den : Nat) : List Char :=
  let (n, e) := sevenDigitsBy tie num den
  Nat.toDigits 10 (n / Nat.pow 10 6) ++ '.' :: padded 6 (n % Nat.pow 10 6) ++
    'e' :: (if e < 0 then '-' else '+') :: padded 2 e.natAbs

theorem exponentialBy_up (num den : Nat) : exponentialBy .up num den = exponential num den :=
  rfl

/-- Off the halves, the rule for halves does not change the text. -/
theorem exponentialBy_eq {num den : Nat} (hnum : 0 < num) (hden : 0 < den)
    (h : ¬ IsSevenDigitHalf (num / den)) (tie : Tie) :
    exponentialBy tie num den = exponential num den := by
  rw [← exponentialBy_up, exponentialBy, exponentialBy, sevenDigitsBy_eq hnum hden h,
    sevenDigitsBy_up]

end NumberText

/-! ## No halves -/

namespace FiniteDouble

open NumberText

variable {x : FiniteDouble} {n : Nat} {e : Int}

/-- A half in front of the point is whole, and small if it is a double. -/
theorem half_large (hn : n < 10 ^ 7) {k : Nat} (h : x.magnitude = (n + 1 / 2) * 10 ^ (k + 1)) :
    x.NearFloor ∧ x.BelowWholeLimit := by
  have hodd : x.magnitude = ((2 * n + 1) * 5 ^ (k + 1) * 2 ^ k : Nat) := by
    rw [h, show (10 : ℚ) = 2 * 5 by norm_num, mul_pow]
    push_cast
    ring
  obtain ⟨j, hj⟩ := exists_toRat_eq_of_magnitude_eq hodd
  refine ⟨nearFloor_of_whole hj, belowWholeLimit_iff.2 ?_⟩
  have hdvd : 5 ^ (k + 1) ∣ x.significand := by
    refine five_pow_dvd (b := 2 * n + 1) (s := x.exponent) (t := k) ?_
    rw [magnitude] at hodd
    rw [hodd, zpow_natCast]
    push_cast
    rfl
  have hpos : 0 < x.significand := by
    refine Nat.pos_of_ne_zero fun hzero => ?_
    have hmagnitude : 0 < x.magnitude := by
      rw [h]
      positivity
    rw [magnitude, hzero, Nat.cast_zero, zero_mul] at hmagnitude
    exact lt_irrefl _ hmagnitude
  have hk : k + 1 < 23 := by
    refine (Nat.pow_lt_pow_iff_right (by decide : 1 < 5)).1 ?_
    exact (Nat.le_of_dvd hpos hdvd).trans_lt
      ((canonical_iff.1 x.canonical).1.trans (by decide))
  have hn' : (n : ℚ) + 1 ≤ 10 ^ 7 := by exact_mod_cast hn
  calc x.magnitude = (n + 1 / 2) * 10 ^ (k + 1) := h
    _ ≤ 10 ^ 7 * 10 ^ 22 := by
        refine mul_le_mul (by linarith) ?_ (by positivity) (by positivity)
        exact pow_le_pow_right₀ (by norm_num) (by omega)
    _ < wholeLimit.magnitude := by norm_num [magnitude, wholeLimit]

/-- A half with decimals has at most ten of them, so it is neither small nor large. -/
theorem half_small (hn_lower : 10 ^ 6 ≤ n) (hn_upper : n < 10 ^ 7) {j : Nat}
    (h : x.magnitude = (n + 1 / 2) / 10 ^ j) : ¬ x.NeedsExponent := by
  have hdvd : 5 ^ j ∣ 2 * n + 1 := by
    refine five_pow_dvd (b := x.significand) (s := 0) (t := x.exponent + (j + 1 : Nat)) ?_
    rw [eq_div_iff (by positivity), magnitude, show (10 : ℚ) = 2 * 5 by norm_num, mul_pow] at h
    rw [zpow_zero, mul_one, zpow_add₀ two_ne_zero, zpow_natCast, pow_succ]
    push_cast
    linarith
  have hj : j < 11 := by
    refine (Nat.pow_lt_pow_iff_right (by decide : 1 < 5)).1 ?_
    exact (Nat.le_of_dvd (by omega) hdvd).trans_lt (by omega)
  have hlower : (10 : ℚ) ^ 6 ≤ n := by exact_mod_cast hn_lower
  have hupper : (n : ℚ) + 1 ≤ 10 ^ 7 := by exact_mod_cast hn_upper
  rw [needsExponent_iff, not_or, not_lt, not_lt, h]
  constructor
  · rw [le_div_iff₀ (by positivity)]
    calc millionth.magnitude * 10 ^ j ≤ millionth.magnitude * 10 ^ 10 := by
          refine mul_le_mul_of_nonneg_left ?_ millionth.magnitude_nonneg
          exact pow_le_pow_right₀ (by norm_num) (by omega)
      _ ≤ 10 ^ 6 := by norm_num [magnitude, millionth]
      _ ≤ n + 1 / 2 := by linarith
  · refine (div_le_self (by positivity) (one_le_pow₀ (by norm_num))).trans ?_
    linarith

/-- **A double that is written with an exponent is not halfway between two numbers of seven
digits.** -/
theorem not_isSevenDigitHalf (hwhole : ¬ (x.NearFloor ∧ x.BelowWholeLimit))
    (hexponent : x.NeedsExponent) : ¬ IsSevenDigitHalf x.magnitude := by
  rintro ⟨n, e, hlower, hupper, h⟩
  rcases le_or_gt e 6 with hle | hgt
  · obtain ⟨j, hj⟩ : ∃ j : Nat, e - 6 = -j := ⟨(6 - e).toNat, by omega⟩
    rw [hj, zpow_neg, zpow_natCast, ← div_eq_mul_inv] at h
    exact half_small hlower hupper h hexponent
  · obtain ⟨k, hk⟩ : ∃ k : Nat, e - 6 = (k + 1 : Nat) := ⟨(e - 7).toNat, by omega⟩
    rw [hk, zpow_natCast] at h
    exact hwhole (half_large hupper h)

/-! ## The text -/

/-- **The text with an exponent is that of the nearest number of seven digits.** It has one digit
in front of the point and six behind it, every other number of seven digits is farther from the
double, and no rule for halves is asked. -/
theorem text_exponential {i : Int} (hagrees : ¬ x.AgreesWith i)
    (hwhole : ¬ (x.NearFloor ∧ x.BelowWholeLimit)) (hexponent : x.NeedsExponent) :
    (∃ p : NumberLiteral.Parts, p.bytes = Utf8.encode (Number.text ⟨.finite x, i⟩) ∧
      p.negative = x.negative ∧ p.IsScientific ∧ IsSevenDigits p.magnitude ∧
      ∀ v, IsSevenDigits v → v ≠ p.magnitude → |p.magnitude - x.magnitude| < |v - x.magnitude|) ∧
    ¬ IsSevenDigitHalf x.magnitude ∧
    ∀ tie, Number.text ⟨.finite x, i⟩ =
      .ofList (withSign x.negative (exponentialBy tie x.numerator x.denominator)) := by
  have hhalf := not_isSevenDigitHalf hwhole hexponent
  have hnum := numerator_pos (magnitude_pos_of_not_nearFloor hwhole)
  have htext : Number.text ⟨.finite x, i⟩ =
      .ofList (withSign x.negative (exponential x.numerator x.denominator)) := by
    rw [Number.text_finite rfl, text, if_neg hagrees, if_neg hwhole, if_pos hexponent]
  obtain ⟨⟨n, e⟩, hdigits⟩ : ∃ p, sevenDigits x.numerator x.denominator = p := ⟨_, rfl⟩
  obtain ⟨hlower, hupper, -⟩ := sevenDigits_spec hnum x.denominator_pos hdigits
  rw [← numerator_div_denominator] at hhalf ⊢
  refine ⟨⟨decimalParts x.negative n (some (exponentPart e)), ?_, rfl,
    decimalParts_isScientific _ hlower hupper e, ?_, ?_⟩, hhalf, fun tie => ?_⟩
  · rw [htext, encode_exponential, hdigits]
  · rw [magnitude_exponentialParts]
    exact ⟨n, e, hlower, hupper, rfl⟩
  · rw [magnitude_exponentialParts]
    exact fun v hv hne => sevenDigits_nearest hnum x.denominator_pos hhalf hdigits hv hne
  · rw [htext, exponentialBy_eq hnum x.denominator_pos hhalf]

/-- The negative double of least magnitude. -/
def leastNegative : FiniteDouble :=
  ⟨true, 1, -1074, by decide⟩

/-- The negative double of least magnitude beside the integer 1. -/
theorem text_exponential_leastNegative :
    (∃ p : NumberLiteral.Parts, p.bytes = Utf8.encode "-4.940656e-324" ∧ p.negative = true ∧
      p.IsScientific ∧ IsSevenDigits p.magnitude ∧
      ∀ v, IsSevenDigits v → v ≠ p.magnitude →
        |p.magnitude - leastNegative.magnitude| < |v - leastNegative.magnitude|) ∧
    ¬ IsSevenDigitHalf leastNegative.magnitude ∧
    ∀ tie, "-4.940656e-324" = .ofList (withSign true
      (exponentialBy tie leastNegative.numerator leastNegative.denominator)) := by
  have htext : Number.text ⟨.finite leastNegative, 1⟩ = "-4.940656e-324" := by decide +kernel
  have h := text_exponential (x := leastNegative) (i := 1) (by decide +kernel) (by decide +kernel)
    (by decide +kernel)
  rwa [htext] at h

end FiniteDouble

end LinkedJson
