import LinkedJson.Proofs.Number.TextLength
import LinkedJson.Proofs.Writing.StrictText

/-!
# Number texts are faithful

Whatever integer stands beside a finite double, its text is a number of the strict grammar that is
off by at most half a millionth, or half a millionth of the double where that is more
(`FiniteDouble.abs_parts_sub_le`): an integer is within `2 ^ -52`, six decimals within half a
millionth, and seven digits within half a millionth of what they write. Whole numbers below the
limit have all their digits (`FiniteDouble.parts_of_whole`), so they are read back as they were;
only a negative zero loses its sign (`FiniteDouble.toDouble_parts_of_whole`).
-/

namespace LinkedJson

/-- The rational number that a literal denotes. -/
def NumberLiteral.Parts.toRat (p : NumberLiteral.Parts) : ℚ :=
  if p.negative then -p.magnitude else p.magnitude

/-- The literal of an integer denotes it. -/
theorem NumberText.toRat_wholeParts (k : Int) :
    (wholeParts (decide (k < 0)) k.natAbs).toRat = k := by
  rw [NumberLiteral.Parts.toRat, magnitude_wholeParts, FiniteDouble.natAbs_cast]
  exact FiniteDouble.ite_neg_abs k

namespace FiniteDouble

open NumberText NumberLiteral

variable {x y : FiniteDouble} {k : Int}

/-! ## The error -/

/-- Between numbers of one sign, the error is that of the magnitudes. -/
theorem abs_toRat_sub {p : Parts} (h : p.negative = x.negative) :
    |p.toRat - x.toRat| = |p.magnitude - x.magnitude| := by
  rw [Parts.toRat, toRat, h]
  split
  · rw [neg_sub_neg, abs_sub_comm]
  · rfl

/-- The text is off by at most half a millionth, or half a millionth of the double. -/
theorem abs_parts_sub_le (x : FiniteDouble) (i : Int) :
    |(x.parts i).toRat - x.toRat| ≤ 5 / 10 ^ 7 * max 1 |x.toRat| := by
  have hone : 5 / 10 ^ 7 * (1 : ℚ) ≤ 5 / 10 ^ 7 * max 1 |x.toRat| :=
    mul_le_mul_of_nonneg_left (le_max_left _ _) (by norm_num)
  have hscale : 5 / 10 ^ 7 * |x.toRat| ≤ 5 / 10 ^ 7 * max 1 |x.toRat| :=
    mul_le_mul_of_nonneg_left (le_max_right _ _) (by norm_num)
  have hbit : (1 : ℚ) / 2 ^ 52 ≤ 5 / 10 ^ 7 * 1 := by norm_num
  unfold parts
  split
  · rename_i hagrees
    rw [toRat_wholeParts]
    exact (agreesWith_iff.1 hagrees).1.trans (hbit.trans hone)
  split
  · rename_i hwhole
    rw [toRat_wholeParts, abs_sub_comm, abs_of_nonneg (sub_nonneg.2 x.floor_le)]
    exact (nearFloor_iff.1 hwhole.1).trans (hbit.trans hone)
  rename_i hwhole
  split
  · have herror := abs_sevenDigits_sub_le (numerator_pos (magnitude_pos_of_not_nearFloor hwhole))
      x.denominator_pos rfl
    rw [numerator_div_denominator] at herror
    rw [abs_toRat_sub rfl, magnitude_exponentialParts]
    exact herror.trans (x.abs_toRat ▸ hscale)
  · have herror := abs_roundDiv_sub_le .even (x.numerator * Nat.pow 10 6) x.denominator_pos
    rw [millionths_div, abs_le] at herror
    rw [abs_toRat_sub rfl, magnitude_millionthParts]
    refine le_trans ?_ hone
    generalize (roundDiv .even (x.numerator * Nat.pow 10 6) x.denominator : ℚ) = n at *
    rw [abs_le]
    constructor <;> linarith

/-! ## Whole numbers -/

/-- The limit is what `10 ^ 60` is rounded to. -/
theorem isNearest_wholeLimit : wholeLimit.IsNearest (10 ^ 60) := by
  have hrounds := Double.rounds_ofRatio false (10 ^ 60) (by decide : 0 < 1)
  have hread : Double.ofRatio false (10 ^ 60) 1 = .finite wholeLimit := by decide +kernel
  rw [hread, Nat.cast_one, div_one, Nat.cast_pow, Nat.cast_ofNat] at hrounds
  exact hrounds.2.2

/-- A whole number below the limit is written with all its digits, whatever stands beside it. -/
theorem parts_of_whole (h : x.toRat = k) (hlimit : x.magnitude < wholeLimit.magnitude) (i : Int) :
    x.parts i = wholeParts (decide (k < 0)) k.natAbs := by
  unfold parts
  split
  · rename_i hagrees
    -- two integers that are less than one apart
    have hdistance := (agreesWith_iff.1 hagrees).1
    rw [h] at hdistance
    have hlt : |(i : ℚ) - k| < 1 := hdistance.trans_lt (by norm_num)
    have : |i - k| < 1 := by exact_mod_cast hlt
    obtain rfl : i = k := sub_eq_zero.1 (Int.abs_lt_one_iff.1 this)
    rfl
  · rw [if_pos ⟨nearFloor_of_whole h, belowWholeLimit_iff.2 hlimit⟩, floor_eq, h,
      Int.floor_intCast]

theorem eq_of_negative_eq (hnegative : x.negative = y.negative)
    (h : x.magnitude = y.magnitude) : x = y := by
  obtain ⟨hsignificand, hexponent⟩ := eq_of_magnitude_eq h
  cases x
  cases y
  simp_all

/-- The zero of a negative sign is the only double whose sign its whole number does not tell. -/
theorem negative_of_whole (h : x.toRat = k) (hzero : x ≠ zero true) :
    x.negative = decide (k < 0) := by
  have hnonneg := x.magnitude_nonneg
  cases hnegative : x.negative with
  | false =>
    rw [toRat, hnegative, if_neg Bool.false_ne_true] at h
    have : (0 : ℚ) ≤ k := h ▸ hnonneg
    have : 0 ≤ k := by exact_mod_cast this
    simpa using this
  | true =>
    rw [toRat, hnegative, if_pos rfl] at h
    have hne : x.magnitude ≠ (zero true).magnitude := fun heq =>
      hzero (eq_of_negative_eq hnegative heq)
    have hpos : 0 < x.magnitude := by
      refine lt_of_le_of_ne hnonneg fun heq => hne ?_
      rw [← heq, magnitude, zero, Nat.cast_zero, zero_mul]
    have : (k : ℚ) < 0 := by linarith
    have : k < 0 := by exact_mod_cast this
    simpa using this

/-- A whole number below the limit is read back from its text, a negative zero without its sign. -/
theorem toDouble_parts_of_whole (h : x.toRat = k) (hlimit : x.magnitude < wholeLimit.magnitude)
    (i : Int) :
    (x.parts i).decimal.toDouble = .finite (if x = zero true then zero false else x) := by
  have hmagnitude : (x.parts i).magnitude = x.magnitude := by
    rw [parts_of_whole h hlimit, magnitude_wholeParts, natAbs_cast, ← h, abs_toRat]
  have hrounds := (x.parts i).rounds_toDouble
  rw [hmagnitude] at hrounds
  obtain ⟨y, hread, hnegative, hnearest⟩ := hrounds.exists_finite x.magnitude_lt_overflow
  have hsign : y.negative = decide (k < 0) := by
    rw [hnegative, parts_of_whole h hlimit]
    rfl
  have hy : y.magnitude = x.magnitude := hnearest.eq_of_magnitude_eq rfl
  rw [hread]
  congr 1
  split
  · rename_i hzero
    obtain rfl : k = 0 := by
      have : (k : ℚ) = 0 := by
        rw [← h, hzero, toRat, magnitude, zero, Nat.cast_zero, zero_mul, neg_zero, ite_self]
      exact_mod_cast this
    exact eq_of_negative_eq hsign (hy.trans (by rw [hzero]; rfl))
  · rename_i hzero
    exact eq_of_negative_eq (hsign.trans (negative_of_whole h hzero).symm) hy

end FiniteDouble

/-! ## The text -/

/-- A text that is read to its end is read to its end from its first byte on. -/
theorem NumberLiteral.readAt_zero {bytes : List UInt8} {d : Double} (hzero : 0 ∉ bytes)
    (h : read bytes = .ok (d, [])) : readAt bytes 0 = .ok (d, bytes.length) := by
  have hcontent : content (textFrom bytes 0) = bytes := content_eq_self hzero
  simp only [readAt, Scan.runAt, hcontent, h, List.length_nil, Nat.sub_zero, Int.zero_add]

/-- The text of a finite double is read to its end. -/
theorem FiniteDouble.readAt_text (x : FiniteDouble) (i : Int) :
    NumberLiteral.readAt (Utf8.encode (.ofList (x.text i))) 0 =
      .ok ((x.parts i).decimal.toDouble, (Utf8.encode (.ofList (x.text i))).length) := by
  refine NumberLiteral.readAt_zero ?_ (x.read_text i)
  rw [encode_text]
  exact (x.parts i).zero_not_mem_bytes

/-- **The text of a number is faithful.** Whatever the integer beside it, a finite double is written
as a number of the strict grammar that is read to its end. It is off by at most half a millionth, or
half a millionth of the double where that is more. A whole number below the limit is written exactly
and read back, a negative zero without its sign. What is not finite is written as `null`. -/
theorem Number.text_faithful (n : Number) :
    (∀ x, n.value = .finite x → ∃ (number : Strict.Number) (d : Double),
      number.bytes = Utf8.encode n.text ∧
      NumberLiteral.readAt (Utf8.encode n.text) 0 = .ok (d, (Utf8.encode n.text).length) ∧
      |number.toRat - x.toRat| ≤ 5 / 10 ^ 7 * max 1 |x.toRat| ∧
      ∀ k : Int, x.toRat = k → x.magnitude < FiniteDouble.wholeLimit.magnitude →
        number.toRat = x.toRat ∧
        d = .finite (if x = FiniteDouble.zero true then FiniteDouble.zero false else x)) ∧
    ((∀ x, n.value ≠ .finite x) → n.text = "null") := by
  refine ⟨fun x hx => ?_, text_not_finite⟩
  rw [text_finite hx]
  refine ⟨.ofFinite x n.integer, _, (x.encode_text _).symm, x.readAt_text _,
    x.abs_parts_sub_le _, fun k hk hlimit => ⟨?_, x.toDouble_parts_of_whole hk hlimit _⟩⟩
  change (x.parts n.integer).toRat = x.toRat
  rw [FiniteDouble.parts_of_whole hk hlimit, NumberText.toRat_wholeParts, hk]

/-- A negative zero and what is not a number, beside an integer that is neither. -/
theorem Number.text_faithful_negativeZero :
    (∃ (number : Strict.Number) (d : Double), number.bytes = Utf8.encode "0" ∧
      NumberLiteral.readAt (Utf8.encode "0") 0 = .ok (d, 1) ∧
      |number.toRat - (FiniteDouble.zero true).toRat| ≤
        5 / 10 ^ 7 * max 1 |(FiniteDouble.zero true).toRat| ∧
      number.toRat = (FiniteDouble.zero true).toRat ∧ d = .finite (FiniteDouble.zero false)) ∧
    Number.text ⟨.nan, 7⟩ = "null" := by
  have htext : Number.text ⟨.finite (.zero true), 7⟩ = "0" := by decide +kernel
  have hrat : (FiniteDouble.zero true).toRat = (0 : Int) := by
    norm_num [FiniteDouble.toRat, FiniteDouble.magnitude, FiniteDouble.zero]
  have hlimit : (FiniteDouble.zero true).magnitude < FiniteDouble.wholeLimit.magnitude := by
    norm_num [FiniteDouble.magnitude, FiniteDouble.zero, FiniteDouble.wholeLimit]
  obtain ⟨number, d, hbytes, hread, herror, hwhole⟩ :=
    (text_faithful ⟨.finite (.zero true), 7⟩).1 _ rfl
  rw [htext] at hbytes hread
  exact ⟨⟨number, d, hbytes, hread, herror, hwhole 0 hrat hlimit⟩,
    (text_faithful ⟨.nan, 7⟩).2 fun x => by simp⟩

end LinkedJson
