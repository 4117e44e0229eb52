import LinkedJson.Proofs.Literal.NumberParts
import LinkedJson.Proofs.Number.Millionths
import LinkedJson.Proofs.Text.Encoding

/-!
# The text of a number is a literal

Whichever notation is chosen, the text of a finite double is a sign, digits, and perhaps a fraction
and an exponent: `FiniteDouble.parts` names them, and the text is their literal (`encode_text`). So
the text of a finite double is read to its end (`read_text`), and it begins with a minus or a digit.
-/

namespace LinkedJson

namespace NumberText

open Ascii NumberLiteral

/-! ## Digits -/

theorem isDigit_of_mem_encode {cs : List Char} (h : ∀ c ∈ cs, c.isDigit = true) :
    ∀ b ∈ Utf8.encode (.ofList cs), isDigit b = true := by
  have hcs : ∀ c ∈ cs, 0x30 ≤ c.toNat ∧ c.toNat ≤ 0x39 := by
    intro c hc
    simpa [Char.isDigit, UInt32.le_iff_toNat_le] using h c hc
  intro b hb
  rw [Utf8.encode_ofList_of_lt fun c hc => by have := hcs c hc; omega] at hb
  obtain ⟨c, hc, rfl⟩ := List.mem_map.1 hb
  have hrange := hcs c hc
  rw [isDigit_iff, Nat.toUInt8_eq, UInt8.toNat_ofNat']
  omega

theorem isDigit_of_mem_toDigits {n : Nat} : ∀ c ∈ Nat.toDigits 10 n, c.isDigit = true :=
  fun _ h => Nat.isDigit_of_mem_toDigits (by decide) (by decide) h

theorem isDigit_of_mem_padded {width n : Nat} : ∀ c ∈ padded width n, c.isDigit = true := by
  intro c h
  rcases List.mem_append.1 h with h | h
  · rw [List.eq_of_mem_replicate h]
    rfl
  · exact isDigit_of_mem_toDigits c h

theorem padded_ne_nil {width n : Nat} : padded width n ≠ [] :=
  List.append_ne_nil_of_right_ne_nil _ Nat.toDigits_ne_nil

/-! ## The notations -/

def wholeParts (negative : Bool) (n : Nat) : Parts where
  negative := negative
  whole := Utf8.encode (.ofList (Nat.toDigits 10 n))
  fraction := none
  exponent := none
  whole_isDigit := isDigit_of_mem_encode isDigit_of_mem_toDigits
  fraction_isDigit := by simp
  ne_nil := fun h => Utf8.encode_ofList_ne_nil Nat.toDigits_ne_nil h.1

/-- A number of millionths, with all six decimals. -/
def decimalParts (negative : Bool) (n : Nat) (exponent : Option ExponentPart) : Parts where
  negative := negative
  whole := Utf8.encode (.ofList (Nat.toDigits 10 (n / Nat.pow 10 6)))
  fraction := some (Utf8.encode (.ofList (padded 6 (n % Nat.pow 10 6))))
  exponent := exponent
  whole_isDigit := isDigit_of_mem_encode isDigit_of_mem_toDigits
  fraction_isDigit := by
    rw [Option.getD_some]
    exact isDigit_of_mem_encode isDigit_of_mem_padded
  ne_nil := fun h => Utf8.encode_ofList_ne_nil Nat.toDigits_ne_nil h.1

def exponentPart (e : Int) : ExponentPart where
  mark := 0x65
  sign := if e < 0 then .minus else .plus
  digits := Utf8.encode (.ofList (padded 2 e.natAbs))
  mark_eq := .inl rfl
  isDigit := isDigit_of_mem_encode isDigit_of_mem_padded
  ne_nil := Utf8.encode_ofList_ne_nil padded_ne_nil

theorem encode_withSign (negative : Bool) (cs : List Char) :
    Utf8.encode (.ofList (withSign negative cs)) =
      signBytes negative ++ Utf8.encode (.ofList cs) := by
  cases negative with
  | true => exact Utf8.encode_ofList_cons '-' cs
  | false => rfl

theorem encode_wholeParts (negative : Bool) (n : Nat) :
    Utf8.encode (.ofList (withSign negative (Nat.toDigits 10 n))) =
      (wholeParts negative n).bytes := by
  rw [encode_withSign, Parts.bytes]
  simp [wholeParts, fractionBytes, exponentBytes]

theorem utf8EncodeChar_point : String.utf8EncodeChar '.' = [point] :=
  rfl

theorem encode_exponential (negative : Bool) (num den : Nat) :
    Utf8.encode (.ofList (withSign negative (exponential num den))) =
      (decimalParts negative (sevenDigits num den).1
        (some (exponentPart (sevenDigits num den).2))).bytes := by
  rw [encode_withSign, exponential]
  generalize sevenDigits num den = digits
  obtain ⟨n, e⟩ := digits
  have hmark : String.utf8EncodeChar 'e' = [0x65] := rfl
  have hsign : String.utf8EncodeChar (if e < 0 then '-' else '+') =
      (exponentPart e).sign.bytes := by
    simp only [exponentPart]
    split <;> rfl
  simp only [Utf8.encode_ofList_append, Utf8.encode_ofList_cons, utf8EncodeChar_point, hmark, hsign,
    Parts.bytes, decimalParts, fractionBytes, exponentBytes, ExponentPart.bytes, exponentPart,
    List.append_assoc, List.cons_append, List.nil_append]

theorem encode_sixDecimals (negative : Bool) (num den : Nat) :
    Utf8.encode (.ofList (withSign negative (sixDecimals num den))) =
      (decimalParts negative (roundDiv .even (num * Nat.pow 10 6) den) none).bytes := by
  rw [encode_withSign, sixDecimals, decimals]
  simp only [Utf8.encode_ofList_append, Utf8.encode_ofList_cons, utf8EncodeChar_point, Parts.bytes,
    decimalParts, fractionBytes, exponentBytes, List.append_nil, List.cons_append, List.nil_append]

end NumberText

namespace FiniteDouble

open Ascii NumberLiteral NumberText

/-- The literal that the text of a double is. -/
def parts (x : FiniteDouble) (i : Int) : Parts :=
  if x.AgreesWith i then wholeParts (decide (i < 0)) i.natAbs
  else if x.NearFloor ∧ x.BelowWholeLimit then wholeParts (decide (x.floor < 0)) x.floor.natAbs
  else if x.NeedsExponent then
    decimalParts x.negative (sevenDigits x.numerator x.denominator).1
      (some (exponentPart (sevenDigits x.numerator x.denominator).2))
  else decimalParts x.negative (roundDiv .even (x.numerator * Nat.pow 10 6) x.denominator) none

theorem encode_text (x : FiniteDouble) (i : Int) :
    Utf8.encode (.ofList (x.text i)) = (x.parts i).bytes := by
  unfold text parts
  split
  · exact encode_wholeParts ..
  · split
    · exact encode_wholeParts ..
    · split
      · exact encode_exponential ..
      · rw [sixByCutting_eq]
        exact encode_sixDecimals ..

theorem whole_parts_ne_nil (x : FiniteDouble) (i : Int) : (x.parts i).whole ≠ [] := by
  unfold parts
  repeat' split
  all_goals exact Utf8.encode_ofList_ne_nil Nat.toDigits_ne_nil

/-- **The text of a finite double is a literal**, and it is read to its end. -/
theorem read_text (x : FiniteDouble) (i : Int) :
    NumberLiteral.read (Utf8.encode (.ofList (x.text i))) =
      .ok ((x.parts i).decimal.toDouble, []) := by
  have := read_bytes_append (x.parts i) stops_nil
  rwa [List.append_nil, ← encode_text] at this

/-- The text begins with a minus or a digit. -/
theorem head?_text (x : FiniteDouble) (i : Int) :
    ∃ b ∈ (Utf8.encode (.ofList (x.text i))).head?, b = minus ∨ isDigit b = true := by
  obtain ⟨b, whole, hwhole⟩ := List.exists_cons_of_ne_nil (x.whole_parts_ne_nil i)
  rw [encode_text, Parts.bytes, hwhole]
  cases (x.parts i).negative with
  | true => exact ⟨minus, rfl, .inl rfl⟩
  | false => exact ⟨b, rfl, .inr ((x.parts i).whole_isDigit b (by simp [hwhole]))⟩

end FiniteDouble

/-! ## No zero byte -/

namespace NumberLiteral

theorem zero_not_mem_of_isDigit {digits : List UInt8} (h : ∀ b ∈ digits, Ascii.isDigit b = true) :
    0 ∉ digits :=
  fun hzero => absurd (h 0 hzero) (by decide)

theorem ExponentPart.zero_not_mem_bytes (e : ExponentPart) : 0 ∉ e.bytes := by
  have hdigits := zero_not_mem_of_isDigit e.isDigit
  have hsign : 0 ∉ e.sign.bytes := by cases e.sign <;> decide
  have hmark : 0 ≠ e.mark := by rcases e.mark_eq with h | h <;> rw [h] <;> decide
  simp [bytes, hdigits, hsign, hmark]

theorem Parts.zero_not_mem_bytes (p : Parts) : 0 ∉ p.bytes := by
  have hsign : 0 ∉ signBytes p.negative := by cases p.negative <;> decide
  have hwhole := zero_not_mem_of_isDigit p.whole_isDigit
  have hfraction : 0 ∉ fractionBytes p.fraction := by
    have hdigits := zero_not_mem_of_isDigit p.fraction_isDigit
    cases hf : p.fraction with
    | none => exact List.not_mem_nil
    | some digits =>
      rw [hf] at hdigits
      exact fun h => (List.mem_cons.1 h).elim (by decide) hdigits
  have hexponent : 0 ∉ exponentBytes p.exponent := by
    cases p.exponent with
    | none => exact List.not_mem_nil
    | some e => exact e.zero_not_mem_bytes
  simp [bytes, hsign, hwhole, hfraction, hexponent]

end NumberLiteral

namespace Number

theorem text_finite {n : Number} {x : FiniteDouble} (h : n.value = .finite x) :
    n.text = .ofList (x.text n.integer) := by
  rw [text, h]

theorem text_not_finite {n : Number} (h : ∀ x, n.value ≠ .finite x) : n.text = "null" := by
  unfold text
  split
  · rename_i x hx
    exact absurd hx (h x)
  · rfl

theorem zero_not_mem_text (n : Number) : 0 ∉ Utf8.encode n.text := by
  by_cases h : ∃ x, n.value = .finite x
  · obtain ⟨x, hx⟩ := h
    rw [text_finite hx, FiniteDouble.encode_text]
    exact (x.parts n.integer).zero_not_mem_bytes
  · rw [text_not_finite (not_exists.1 h)]
    decide

end Number

end LinkedJson
