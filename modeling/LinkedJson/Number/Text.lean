import LinkedJson.Number.Basic
import LinkedJson.Number.Decimal

/-!
# The text of a number

Five notations, tried in this order: the integer beside the double, if the two agree to within the
last bit of 1 and the double lies within 32 bits; `null` for what is not finite; all digits of a
whole number below `10 ^ 60`; seven significant digits with an exponent for magnitudes below
`10 ^ -6` or above `10 ^ 9`; six decimals for the rest, where a half goes to the even neighbour
although decimals are only ever rounded with halves away from zero (`FiniteDouble.sixByCutting`).
Every comparison and every rounding is exact.
-/

namespace LinkedJson

namespace NumberText

/-- A minus in front of a negative number. -/
def withSign (negative : Bool) (text : List Char) : List Char :=
  if negative then '-' :: text else text

/-- All digits of an integer. -/
def integer (i : Int) : List Char :=
  withSign (decide (i < 0)) (Nat.toDigits 10 i.natAbs)

/-- Digits with zeros in front, up to a width. -/
def padded (width n : Nat) : List Char :=
  let digits := Nat.toDigits 10 n
  List.replicate (width - digits.length) '0' ++ digits

/-- The greatest `e` with `10 ^ e ≤ num / den`, for positive `num` and `den`. -/
def floorLog10 (num den : Nat) : Int :=
  if den ≤ num then (Decimal.digitCount (num / den) : Int) - 1
  else -(Decimal.digitCount ((den - 1) / num) : Int)

/-- The seven digits nearest to `num / den` and the exponent of the first. A half goes up. -/
def sevenDigits (num den : Nat) : Nat × Int :=
  let e := floorLog10 num den
  let n := roundDiv .up (num * Nat.pow 10 (6 - e).toNat) (den * Nat.pow 10 (e - 6).toNat)
  if n = Nat.pow 10 7 then (Nat.pow 10 6, e + 1) else (n, e)

/-- One digit, a point, six digits and an exponent of at least two digits. -/
def exponential (num den : Nat) : List Char :=
  let (n, e) := sevenDigits num den
  Nat.toDigits 10 (n / Nat.pow 10 6) ++ '.' :: padded 6 (n % Nat.pow 10 6) ++
    'e' :: (if e < 0 then '-' else '+') :: padded 2 e.natAbs

/-- A number of units of the last decimal place, with all decimals. -/
def decimals (places n : Nat) : List Char :=
  Nat.toDigits 10 (n / Nat.pow 10 places) ++ '.' :: padded places (n % Nat.pow 10 places)

end NumberText

namespace FiniteDouble

/-- The numerator with its sign. -/
def signedNumerator (x : FiniteDouble) : Int :=
  signed x.negative x.numerator

/-- The double lies within 32 bits and differs from `i` by at most `2 ^ -52`. -/
def AgreesWith (x : FiniteDouble) (i : Int) : Prop :=
  (i * x.denominator - x.signedNumerator).natAbs * Nat.pow 2 52 ≤ x.denominator ∧
    leastInt32 * x.denominator ≤ x.signedNumerator ∧
    x.signedNumerator ≤ greatestInt32 * x.denominator

instance (x : FiniteDouble) (i : Int) : Decidable (x.AgreesWith i) :=
  inferInstanceAs (Decidable (_ ∧ _ ∧ _))

/-- The greatest integer that is not above the double. -/
def floor (x : FiniteDouble) : Int :=
  x.signedNumerator / x.denominator

/-- The double is at most `2 ^ -52` above an integer. -/
def NearFloor (x : FiniteDouble) : Prop :=
  x.signedNumerator % x.denominator * Nat.pow 2 52 ≤ x.denominator

instance (x : FiniteDouble) : Decidable x.NearFloor :=
  inferInstanceAs (Decidable (_ ≤ _))

/-- The magnitude is below the double nearest to `10 ^ 60`. -/
def BelowWholeLimit (x : FiniteDouble) : Prop :=
  x.numerator < 0x13e9e4e4c2f344 * Nat.pow 2 147 * x.denominator

instance (x : FiniteDouble) : Decidable x.BelowWholeLimit :=
  inferInstanceAs (Decidable (_ < _))

/-- The magnitude is below the double nearest to `10 ^ -6`, or above `10 ^ 9`. -/
def NeedsExponent (x : FiniteDouble) : Prop :=
  x.numerator * Nat.pow 2 72 < 4722366482869645 * x.denominator ∨
    Nat.pow 10 9 * x.denominator < x.numerator

instance (x : FiniteDouble) : Decidable x.NeedsExponent :=
  inferInstanceAs (Decidable (_ ∨ _))

/-- So many decimals. A half goes away from zero. -/
def fixed (x : FiniteDouble) (places : Nat) : List Char :=
  NumberText.withSign x.negative
    (NumberText.decimals places (roundDiv .up (x.numerator * Nat.pow 10 places) x.denominator))

/-- 128 times the double is an odd whole number. -/
def ScalesToOdd (x : FiniteDouble) : Prop :=
  128 * x.signedNumerator % x.denominator = 0 ∧
    128 * x.signedNumerator / x.denominator % 2 ≠ 0

instance (x : FiniteDouble) : Decidable x.ScalesToOdd :=
  inferInstanceAs (Decidable (_ ∧ _))

/-- Six decimals. Where there is a half, the last of seven decimals is cut off if that leaves an
even digit. -/
def sixByCutting (x : FiniteDouble) : List Char :=
  if x.ScalesToOdd then
    let truncated := (x.fixed 7).dropLast
    if ((truncated.getLastD '0').toNat - 0x30) % 2 = 0 then truncated else x.fixed 6
  else x.fixed 6

/-- The text of a finite double that stands beside the integer `i`. -/
def text (x : FiniteDouble) (i : Int) : List Char :=
  if x.AgreesWith i then NumberText.integer i
  else if x.NearFloor ∧ x.BelowWholeLimit then NumberText.integer x.floor
  else if x.NeedsExponent then
    NumberText.withSign x.negative (NumberText.exponential x.numerator x.denominator)
  else x.sixByCutting

end FiniteDouble

namespace Number

/-- The text of a number. -/
def text (n : Number) : String :=
  match n.value with
  | .finite x => .ofList (x.text n.integer)
  | _ => "null"

end Number

end LinkedJson
