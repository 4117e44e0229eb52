import LinkedJson.Double.Rounding

/-!
# Decimal numbers

A decimal is a sign, a coefficient and a power of ten. `toDouble` is the nearest double, ties to
even. Magnitudes far outside the range of doubles are answered without writing out the power of ten;
the bounds are generous enough to change nothing.
-/

namespace LinkedJson

/-- The number `coefficient * 10 ^ exponent` with a sign. -/
structure Decimal where
  negative : Bool
  coefficient : Nat
  exponent : Int
  deriving Repr, DecidableEq

namespace Decimal

/-- How many decimal digits a natural number has; zero has one. -/
def digitCount (n : Nat) : Nat :=
  (Nat.toDigits 10 n).length

/-- The double nearest to a decimal. A magnitude of at least `10 ^ 309` is infinite and one below
`10 ^ (-324)` is zero, whatever the digits are. -/
def toDouble (d : Decimal) : Double :=
  let top := d.exponent + digitCount d.coefficient
  if d.coefficient = 0 ∨ top ≤ -324 then .finite (FiniteDouble.zero d.negative)
  else if 310 ≤ top then .infinite d.negative
  else .ofRatio d.negative (d.coefficient * Nat.pow 10 d.exponent.toNat)
    (Nat.pow 10 (-d.exponent).toNat)

end Decimal

end LinkedJson
