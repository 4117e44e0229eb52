import LinkedJson.Double.Rounding

/-!
# From doubles to narrower types

`toInt32` truncates toward zero and clamps to 32 bits, `truncated` is the same as a double and keeps
the sign of a zero, and `toSingle` rounds to single precision.
-/

namespace LinkedJson

def leastInt32 : Int := -2147483648

def greatestInt32 : Int := 2147483647

/-- The nearest integer within 32 bits. -/
def clampInt32 (i : Int) : Int :=
  max leastInt32 (min greatestInt32 i)

namespace Double

/-- The sign of a double; "not a number" has none. -/
def isNegative : Double → Bool
  | .nan => false
  | .infinite negative => negative
  | .finite x => x.negative

/-- The integer view of a double: truncated toward zero, clamped to 32 bits, and 0 for "not a
number". -/
def toInt32 : Double → Int
  | .nan => 0
  | .infinite negative => if negative then leastInt32 else greatestInt32
  | .finite x => clampInt32 (FiniteDouble.signed x.negative x.wholePart)

/-- The integer view as a double. What truncates to zero keeps its sign. -/
def truncated (d : Double) : Double :=
  ofRatio d.isNegative d.toInt32.natAbs 1

/-- The double nearest to `d` among the numbers of single precision. -/
def toSingle : Double → Double
  | .nan => .nan
  | .infinite negative => .infinite negative
  | .finite x =>
    let (m, q) := Format.single.nearest x.numerator x.denominator
    if Format.single.Canonical m q then ofRatio x.negative (m * Nat.pow 2 q.toNat) (Nat.pow 2 (-q).toNat)
    else .infinite x.negative

end Double

end LinkedJson
