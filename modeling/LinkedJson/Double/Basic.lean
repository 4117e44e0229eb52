/-!
# Binary floating point numbers

A finite number is a sign, a significand `m` and an exponent `q`, and stands for `m * 2 ^ q`.
`Format.Canonical` selects one such pair for each magnitude: the significand has full length unless
the exponent is the least one. So two finite doubles are equal exactly when sign and magnitude
agree, and the two zeros differ. `ofBits` and `toBits` are the interchange form of 64 bits.
-/

namespace LinkedJson

/-- A binary floating point format: the bits of a significand and the range of the exponent of its
last bit. -/
structure Format where
  precision : Nat
  leastExponent : Int
  greatestExponent : Int

namespace Format

def single : Format := ⟨24, -149, 104⟩

def double : Format := ⟨53, -1074, 971⟩

/-- The pair of significand and exponent that the format uses for its magnitude. -/
def Canonical (f : Format) (m : Nat) (q : Int) : Prop :=
  m < Nat.pow 2 f.precision ∧ f.leastExponent ≤ q ∧ q ≤ f.greatestExponent ∧
    (Nat.pow 2 (f.precision - 1) ≤ m ∨ q = f.leastExponent)

instance (f : Format) (m : Nat) (q : Int) : Decidable (f.Canonical m q) :=
  inferInstanceAs (Decidable (_ ∧ _ ∧ _ ∧ _))

end Format

/-- A finite double: `significand * 2 ^ exponent` with a sign. -/
structure FiniteDouble where
  negative : Bool
  significand : Nat
  exponent : Int
  canonical : Format.double.Canonical significand exponent
  deriving DecidableEq

/-- A double. All patterns of "not a number" are one value. -/
inductive Double where
  | nan
  | infinite (negative : Bool)
  | finite (x : FiniteDouble)
  deriving DecidableEq

namespace FiniteDouble

/-- The zero of a sign. -/
def zero (negative : Bool) : FiniteDouble :=
  ⟨negative, 0, -1074, by decide⟩

/-- The magnitude as a quotient of natural numbers: the numerator. -/
def numerator (x : FiniteDouble) : Nat :=
  x.significand * Nat.pow 2 x.exponent.toNat

/-- The magnitude as a quotient of natural numbers: the denominator, a power of two. -/
def denominator (x : FiniteDouble) : Nat :=
  Nat.pow 2 (-x.exponent).toNat

/-- The magnitude without what follows its point. -/
def wholePart (x : FiniteDouble) : Nat :=
  x.numerator / x.denominator

theorem denominator_pos (x : FiniteDouble) : 0 < x.denominator :=
  Nat.two_pow_pos _

/-- A sign in front of a natural number. -/
def signed (negative : Bool) (n : Nat) : Int :=
  if negative then -n else n

end FiniteDouble

namespace Double

/-- The significands of 53 bits begin with a bit that is not stored. -/
def hiddenBit : Nat := Nat.pow 2 52

/-- The double of an exponent field and a fraction field. -/
def ofFields (negative : Bool) (field : Nat) (fraction : Nat) : Double :=
  if field = 2047 then if fraction = 0 then .infinite negative else .nan
  else
    let m := if field = 0 then fraction else hiddenBit + fraction
    let q : Int := if field = 0 then -1074 else (field : Int) - 1075
    if h : Format.double.Canonical m q then .finite ⟨negative, m, q, h⟩ else .nan

/-- Reads the interchange form. -/
def ofBits (bits : UInt64) : Double :=
  let n := bits.toNat
  ofFields (decide (Nat.pow 2 63 ≤ n)) (n / hiddenBit % 2048) (n % hiddenBit)

/-- Writes the interchange form. "Not a number" is written as a quiet one without a payload. -/
def toBits : Double → UInt64
  | .nan => 0x7ff8000000000000
  | .infinite negative => (signBit negative + 2047 * hiddenBit).toUInt64
  | .finite x =>
    let field := if x.significand < hiddenBit then 0 else (x.exponent + 1075).toNat
    (signBit x.negative + field * hiddenBit + x.significand % hiddenBit).toUInt64
where
  signBit (negative : Bool) : Nat := if negative then Nat.pow 2 63 else 0

end Double

end LinkedJson
