import LinkedJson.Proofs.Number.Settling

/-!
# How long the text of a number is

No notation takes more than 61 characters (`Number.length_text_le`): 60 digits and a sign, for
whole numbers below the limit of the notation that writes all digits.
-/

namespace LinkedJson

namespace NumberText

theorem length_toDigits_le {n k : Nat} (hk : 0 < k) (h : n < 10 ^ k) :
    (Nat.toDigits 10 n).length ≤ k :=
  (Nat.length_toDigits_le_iff (by decide) hk).2 h

theorem length_padded (width n : Nat) :
    (padded width n).length = max width (Nat.toDigits 10 n).length := by
  rw [padded, List.length_append, List.length_replicate]
  omega

theorem length_padded_le {width n k : Nat} (hk : 0 < k) (hwidth : width ≤ k) (h : n < 10 ^ k) :
    (padded width n).length ≤ k := by
  rw [length_padded]
  exact max_le hwidth (length_toDigits_le hk h)

theorem length_withSign_le (negative : Bool) (cs : List Char) :
    (withSign negative cs).length ≤ cs.length + 1 := by
  cases negative with
  | true => exact Nat.le_refl _
  | false => exact Nat.le_succ _

theorem length_integer_le {i : Int} {k : Nat} (hk : 0 < k) (h : i.natAbs < 10 ^ k) :
    (integer i).length ≤ k + 1 :=
  (length_withSign_le _ _).trans (Nat.succ_le_succ (length_toDigits_le hk h))

/-! ## Characters -/

theorem lt_of_isDigit {c : Char} (h : c.isDigit = true) : c.toNat < 0x80 := by
  simp only [Char.isDigit, Bool.and_eq_true, decide_eq_true_eq, UInt32.le_iff_toNat_le] at h
  exact Nat.lt_of_le_of_lt h.2 (by decide)

theorem lt_of_mem_toDigits {n : Nat} : ∀ c ∈ Nat.toDigits 10 n, c.toNat < 0x80 :=
  fun c hc => lt_of_isDigit (isDigit_of_mem_toDigits c hc)

theorem lt_of_mem_padded {width n : Nat} : ∀ c ∈ padded width n, c.toNat < 0x80 :=
  fun c hc => lt_of_isDigit (isDigit_of_mem_padded c hc)

theorem lt_of_mem_withSign {negative : Bool} {cs : List Char} (h : ∀ c ∈ cs, c.toNat < 0x80) :
    ∀ c ∈ withSign negative cs, c.toNat < 0x80 := by
  cases negative with
  | true => exact List.forall_mem_cons.2 ⟨by decide, h⟩
  | false => exact h

theorem lt_of_mem_exponential {num den : Nat} : ∀ c ∈ exponential num den, c.toNat < 0x80 := by
  have hsign : ∀ e : Int, (if e < 0 then '-' else '+').toNat < 0x80 := by
    intro e
    split <;> decide
  unfold exponential
  simp only [List.forall_mem_append, List.forall_mem_cons]
  exact ⟨⟨lt_of_mem_toDigits, by decide, lt_of_mem_padded⟩, by decide, hsign _, lt_of_mem_padded⟩

theorem lt_of_mem_sixDecimals {num den : Nat} : ∀ c ∈ sixDecimals num den, c.toNat < 0x80 := by
  unfold sixDecimals decimals
  simp only [List.forall_mem_append, List.forall_mem_cons]
  exact ⟨lt_of_mem_toDigits, by decide, lt_of_mem_padded⟩

end NumberText

namespace FiniteDouble

open NumberText

variable {x : FiniteDouble}

theorem natAbs_lt_of_agreesWith {i : Int} (h : x.AgreesWith i) : i.natAbs < 10 ^ 60 := by
  obtain ⟨herror, hlower, hupper⟩ := agreesWith_iff.1 h
  obtain ⟨herror_lower, herror_upper⟩ := abs_le.1 herror
  unfold leastInt32 at hlower
  unfold greatestInt32 at hupper
  norm_num at herror_lower herror_upper hlower hupper
  have hi_lower : (-2147483649 : ℚ) < i := by linarith
  have hi_upper : (i : ℚ) < 2147483649 := by linarith
  have : -2147483649 < i := by exact_mod_cast hi_lower
  have : i < 2147483649 := by exact_mod_cast hi_upper
  omega

theorem natAbs_floor_lt (h : x.BelowWholeLimit) : x.floor.natAbs < 10 ^ 60 := by
  by_cases hwhole : ∃ k : Int, x.toRat = k
  · obtain ⟨k, hk⟩ := hwhole
    have hlimit : wholeLimit.magnitude < 10 ^ 60 := by norm_num [magnitude, wholeLimit]
    have hlt := (belowWholeLimit_iff.1 h).trans hlimit
    rw [← abs_toRat, hk, ← natAbs_cast] at hlt
    rw [floor_eq, hk, Int.floor_intCast]
    exact_mod_cast hlt
  · have := natAbs_floor_lt_of_not_whole (not_exists.1 hwhole)
    omega

/-- The exponent of the seven digits of a double has at most four digits. -/
theorem natAbs_exponent_lt {n : Nat} {e : Int} (hpos : 0 < x.magnitude)
    (hdigits : sevenDigits x.numerator x.denominator = (n, e)) : e.natAbs < 10 ^ 4 := by
  obtain ⟨-, -, -, hrange⟩ := sevenDigits_bounds hpos hdigits
  have hrange' : (10 : ℚ) ^ (e - 1) ≤ x.magnitude ∧ x.magnitude < 10 ^ (e + 1) := by
    rcases hrange with ⟨hlower, hupper⟩ | ⟨-, hlower, hupper⟩
    · exact ⟨(zpow_le_zpow_right₀ (by norm_num) (by omega)).trans hlower, hupper⟩
    · exact ⟨hlower, hupper.trans (zpow_lt_zpow_right₀ (by norm_num) (by omega))⟩
  have hupper : x.magnitude < 10 ^ (1024 : Int) := by
    refine (x.magnitude_lt_overflow.trans_le overflow_le).trans_le ?_
    exact zpow_le_zpow_left₀ (by decide) (by norm_num) (by norm_num)
  have hlower : (10 : ℚ) ^ (-1074 : Int) ≤ x.magnitude := by
    obtain ⟨k, hk⟩ := exists_magnitude_eq (canonical_iff.1 x.canonical).2.1
    have hunit : (0 : ℚ) < 2 ^ (-1074 : Int) := by positivity
    have hk_pos : (1 : ℚ) ≤ k := by
      have : (0 : ℚ) < k := pos_of_mul_pos_left (hk ▸ hpos) hunit.le
      exact_mod_cast this
    calc (10 : ℚ) ^ (-1074 : Int) ≤ 2 ^ (-1074 : Int) := by
          rw [zpow_neg, zpow_neg]
          exact inv_anti₀ (by positivity)
            (zpow_le_zpow_left₀ (by decide) (by norm_num) (by norm_num))
      _ ≤ k * 2 ^ (-1074 : Int) := le_mul_of_one_le_left hunit.le hk_pos
      _ = x.magnitude := hk.symm
  have he_upper := (zpow_lt_zpow_iff_right₀ (by norm_num : (1 : ℚ) < 10)).1
    (hrange'.1.trans_lt hupper)
  have he_lower := (zpow_lt_zpow_iff_right₀ (by norm_num : (1 : ℚ) < 10)).1
    (hlower.trans_lt hrange'.2)
  omega

/-- A double that is written with a fraction is not zero. -/
theorem magnitude_pos_of_not_nearFloor (h : ¬ (x.NearFloor ∧ x.BelowWholeLimit)) :
    0 < x.magnitude := by
  refine lt_of_le_of_ne x.magnitude_nonneg fun hzero => h ?_
  have hrat : x.toRat = (0 : Int) := by
    rw [Int.cast_zero, ← abs_eq_zero, abs_toRat, ← hzero]
  exact ⟨nearFloor_of_whole hrat, belowWholeLimit_iff.2 (hzero ▸ lt_wholeLimit (by positivity))⟩

theorem length_exponential_le (hpos : 0 < x.magnitude) :
    (exponential x.numerator x.denominator).length ≤ 60 := by
  obtain ⟨⟨n, e⟩, hdigits⟩ : ∃ p, sevenDigits x.numerator x.denominator = p := ⟨_, rfl⟩
  obtain ⟨-, hn_upper, -⟩ := sevenDigits_bounds hpos hdigits
  have hfirst : (Nat.toDigits 10 (n / Nat.pow 10 6)).length ≤ 1 :=
    length_toDigits_le (by decide) ((Nat.div_lt_iff_lt_mul (by decide)).2 hn_upper)
  have hplaces : (padded 6 (n % Nat.pow 10 6)).length ≤ 6 :=
    length_padded_le (by decide) (Nat.le_refl 6) (Nat.mod_lt n (by decide))
  have hexponent : (padded 2 e.natAbs).length ≤ 4 :=
    length_padded_le (by decide) (by decide) (natAbs_exponent_lt hpos hdigits)
  rw [exponential, hdigits]
  simp only [List.length_append, List.length_cons]
  omega

theorem length_sixDecimals_le (h : ¬ x.NeedsExponent) :
    (sixDecimals x.numerator x.denominator).length ≤ 60 := by
  obtain ⟨n, hn⟩ : ∃ n, roundDiv .even (x.numerator * Nat.pow 10 6) x.denominator = n := ⟨_, rfl⟩
  have hn_upper := (millionths_bounds h hn).2
  have hwhole : (Nat.toDigits 10 (n / Nat.pow 10 6)).length ≤ 10 := by
    refine length_toDigits_le (by decide) ((Nat.div_lt_iff_lt_mul (by decide)).2 ?_)
    exact hn_upper.trans_lt (by decide)
  have hplaces : (padded 6 (n % Nat.pow 10 6)).length ≤ 6 :=
    length_padded_le (by decide) (Nat.le_refl 6) (Nat.mod_lt n (by decide))
  rw [sixDecimals, hn, decimals]
  simp only [List.length_append, List.length_cons]
  omega

theorem length_text_le (x : FiniteDouble) (i : Int) : (x.text i).length ≤ 61 := by
  unfold text
  split
  · rename_i h
    exact length_integer_le (by decide) (natAbs_lt_of_agreesWith h)
  · split
    · rename_i h
      exact length_integer_le (by decide) (natAbs_floor_lt h.2)
    · rename_i hfloor
      split
      · exact (length_withSign_le _ _).trans
          (Nat.succ_le_succ (length_exponential_le (magnitude_pos_of_not_nearFloor hfloor)))
      · rename_i hexponent
        rw [sixByCutting_eq]
        exact (length_withSign_le _ _).trans (Nat.succ_le_succ (length_sixDecimals_le hexponent))

theorem lt_of_mem_text (x : FiniteDouble) (i : Int) : ∀ c ∈ x.text i, c.toNat < 0x80 := by
  unfold text
  repeat' split
  · exact lt_of_mem_withSign lt_of_mem_toDigits
  · exact lt_of_mem_withSign lt_of_mem_toDigits
  · exact lt_of_mem_withSign lt_of_mem_exponential
  · rw [sixByCutting_eq]
    exact lt_of_mem_withSign lt_of_mem_sixDecimals

end FiniteDouble

/-- **The text of a number takes at most 61 bytes.** -/
theorem Number.length_text_le (n : Number) : (Utf8.encode n.text).length ≤ 61 := by
  by_cases h : ∃ x, n.value = .finite x
  · obtain ⟨x, hx⟩ := h
    rw [text_finite hx, Utf8.encode_ofList_of_lt (x.lt_of_mem_text n.integer), List.length_map]
    exact x.length_text_le n.integer
  · rw [text_not_finite (not_exists.1 h)]
    decide

end LinkedJson
