import LinkedJson.Proofs.Number.Settling

/-!
# Six decimals

A double that is written with six decimals is written as the nearest number of millionths, a half
being rounded to the even neighbour (`FiniteDouble.text_sixDecimals`).
-/

namespace LinkedJson

/-! ## Nearest whole numbers -/

/-- No whole number is nearer to `v`, and no other is as near unless `n` is even. -/
structure IsNearestEven (n : Nat) (v : ℚ) : Prop where
  le : ∀ m : Int, |(n : ℚ) - v| ≤ |m - v|
  even : ∀ m : Int, m ≠ n → |(m : ℚ) - v| = |(n : ℚ) - v| → n % 2 = 0

theorem isNearestEven_roundDiv (num : Nat) {den : Nat} (hden : 0 < den) :
    IsNearestEven (roundDiv .even num den) (num / den) := by
  have herror := abs_roundDiv_sub_le .even num hden
  refine ⟨fun m => ?_, fun m hm heq => even_roundDiv num hden ?_⟩
  · rcases eq_or_ne m (roundDiv .even num den : Nat) with rfl | hm
    · exact le_rfl
    · exact herror.trans (half_le_abs_sub herror hm)
  · exact le_antisymm herror (heq ▸ half_le_abs_sub herror hm)

namespace FiniteDouble

open NumberText

variable {x : FiniteDouble}

/-! ## The text -/

/-- **Six decimals are the nearest ones, and those with an even last digit of two.** A double is
halfway between two of them exactly if it is an odd multiple of `1 / 128`, and cutting the last of
seven decimals gives the same text. -/
theorem text_sixDecimals {i : Int} (hagrees : ¬ x.AgreesWith i)
    (hwhole : ¬ (x.NearFloor ∧ x.BelowWholeLimit)) (hexponent : ¬ x.NeedsExponent) :
    (∃ n : Nat, Number.text ⟨.finite x, i⟩ = .ofList (withSign x.negative (decimals 6 n)) ∧
      IsNearestEven n (x.magnitude * 10 ^ 6) ∧
      ∃ p : NumberLiteral.Parts, p.bytes = Utf8.encode (Number.text ⟨.finite x, i⟩) ∧
        p.negative = x.negative ∧ p.magnitude = n / 10 ^ 6) ∧
    ((∃ n : Nat, x.magnitude * 10 ^ 6 = n + 1 / 2) ↔ ∃ k : Int, Odd k ∧ 128 * x.toRat = k) ∧
    Number.text ⟨.finite x, i⟩ = .ofList x.sixByCutting := by
  have htext : Number.text ⟨.finite x, i⟩ =
      .ofList (withSign x.negative (sixDecimals x.numerator x.denominator)) := by
    rw [Number.text_finite rfl, text, if_neg hagrees, if_neg hwhole, if_neg hexponent,
      sixByCutting_eq]
  refine ⟨⟨roundDiv .even (x.numerator * Nat.pow 10 6) x.denominator, htext, ?_,
    decimalParts x.negative (roundDiv .even (x.numerator * Nat.pow 10 6) x.denominator) none, ?_,
    rfl, ?_⟩, millionths_half_iff, ?_⟩
  · have hnearest := isNearestEven_roundDiv (x.numerator * Nat.pow 10 6) x.denominator_pos
    rwa [millionths_div] at hnearest
  · rw [htext, encode_sixDecimals]
  · exact magnitude_millionthParts _ _
  · rw [htext, sixByCutting_eq]

/-- A half whose even neighbour is the upper one, below zero. -/
theorem text_sixDecimals_half :
    (∃ n : Nat, "-0.023438" = String.ofList (withSign true (decimals 6 n)) ∧
      IsNearestEven n (3 / 128 * 10 ^ 6) ∧
      ∃ p : NumberLiteral.Parts, p.bytes = Utf8.encode "-0.023438" ∧
        p.negative = true ∧ p.magnitude = n / 10 ^ 6) ∧
    ((∃ n : Nat, (3 / 128 : ℚ) * 10 ^ 6 = n + 1 / 2) ↔
      ∃ k : Int, Odd k ∧ 128 * (-(3 / 128) : ℚ) = k) ∧
    "-0.023438" = String.ofList (sixByCutting ⟨true, 3 * 2 ^ 51, -58, by decide⟩) := by
  have htext : Number.text ⟨.finite ⟨true, 3 * 2 ^ 51, -58, by decide⟩, 0⟩ = "-0.023438" := by
    decide +kernel
  have hmagnitude : magnitude ⟨true, 3 * 2 ^ 51, -58, by decide⟩ = 3 / 128 := by
    norm_num [magnitude]
  have h := text_sixDecimals (x := ⟨true, 3 * 2 ^ 51, -58, by decide⟩) (i := 0) (by decide +kernel)
    (by decide +kernel) (by decide +kernel)
  rw [htext, toRat, hmagnitude] at h
  exact h

end FiniteDouble

end LinkedJson
