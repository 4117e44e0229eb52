import LinkedJson.Double.Basic

/-!
# Rounding to nearest

`roundDiv` is the natural number nearest to a quotient, and `Format.nearest` the canonical pair
nearest to a positive quotient, ties to even. Both work on exact naturals. A magnitude that the
format does not reach comes out as a pair above its greatest exponent, which is not canonical;
`Double.ofRatio` reads it as an infinity.
-/

namespace LinkedJson

/-- Where a quotient halfway between two naturals goes. -/
inductive Tie where
  | even
  | up
  deriving Repr, DecidableEq

/-- The natural number nearest to `num / den`. -/
def roundDiv (tie : Tie) (num den : Nat) : Nat :=
  let whole := num / den
  let twice := 2 * (num % den)
  if twice < den then whole
  else if den < twice then whole + 1
  else match tie with
    | .even => if whole % 2 = 0 then whole else whole + 1
    | .up => whole + 1

/-- The greatest `e` with `2 ^ e ≤ num / den`, for positive `num` and `den`. -/
def floorLog2 (num den : Nat) : Int :=
  let e : Int := (num.log2 : Int) - (den.log2 : Int)
  if den * Nat.pow 2 e.toNat ≤ num * Nat.pow 2 (-e).toNat then e else e - 1

namespace Format

/-- The exponent of the last bit that the format keeps of `num / den`. -/
def lastBit (f : Format) (num den : Nat) : Int :=
  max f.leastExponent (floorLog2 num den - ((f.precision : Int) - 1))

/-- The significand and exponent nearest to `num / den`, ties to the even significand. A carry out
of the significand raises the exponent. -/
def nearest (f : Format) (num den : Nat) : Nat × Int :=
  if num = 0 then (0, f.leastExponent)
  else
    let q := f.lastBit num den
    let m := roundDiv .even (num * Nat.pow 2 (-q).toNat) (den * Nat.pow 2 q.toNat)
    if m = Nat.pow 2 f.precision then (Nat.pow 2 (f.precision - 1), q + 1) else (m, q)

end Format

namespace Double

/-- The double nearest to `num / den` with a sign, ties to even; what is too large is infinite and
what is too small is a zero of that sign. -/
def ofRatio (negative : Bool) (num den : Nat) : Double :=
  let (m, q) := Format.double.nearest num den
  if h : Format.double.Canonical m q then .finite ⟨negative, m, q, h⟩ else .infinite negative

end Double

end LinkedJson
