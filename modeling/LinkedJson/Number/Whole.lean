import LinkedJson.Number.Text

/-!
# Whole numbers of callers

Limits, sizes and places come from callers as doubles, so from `2 ^ 53` on a whole number stands
for every other one that has the same nearest double. `Whole.shortest` picks the one of them that
is written with the fewest digits and zeros behind them, and `Whole.text` is how it stands in a
message.
-/

namespace LinkedJson.Whole

/-- The double nearest to a natural number. -/
def nearest (n : Nat) : Double :=
  .ofRatio false n 1

/-- The multiple of `unit` next to `n` that has the same nearest double, if there is one. Of two
such multiples it is the one that is nearer to `n`. -/
def onGrid? (n unit : Nat) : Option Nat :=
  let below := n / unit * unit
  let above := below + unit
  if nearest below = nearest n ∧ (nearest above ≠ nearest n ∨ n - below ≤ above - n) then
    some below
  else if nearest above = nearest n then some above
  else none

/-- The number with the most zeros at its end, at most the given ones, that has the same nearest
double as `n`. -/
def fewestDigits (n : Nat) : (zeros : Nat) → Nat
  | 0 => n
  | zeros + 1 => (onGrid? n (Nat.pow 10 (zeros + 1))).getD (fewestDigits n zeros)

/-- The whole number that stands for all those with the same nearest double. Up to `2 ^ 53` each
stands for itself, and so does one that is beyond every double. -/
def shortest (i : Int) : Int :=
  if i.natAbs ≤ Nat.pow 2 53 then i
  else match nearest i.natAbs with
    | .finite x =>
      FiniteDouble.signed (decide (i < 0))
        (fewestDigits x.wholePart (Decimal.digitCount x.wholePart - 1))
    | _ => i

/-- A number with its point behind the first digit and without the zeros at its end. -/
def exponential (n : Nat) : List Char :=
  let digits := Nat.toDigits 10 n
  let places := (digits.tail.reverse.dropWhile (· == '0')).reverse
  digits.take 1 ++ (if places.isEmpty then [] else '.' :: places) ++
    'e' :: '+' :: Nat.toDigits 10 (digits.length - 1)

/-- A whole number in a message: up to 21 digits as they are, more with an exponent. -/
def text (i : Int) : String :=
  let n := (shortest i).natAbs
  .ofList (NumberText.withSign (decide (i < 0)) (
    if nearest n = .infinite false then "Infinity".toList
    else if n < Nat.pow 10 21 then Nat.toDigits 10 n
    else exponential n))

theorem shortest_of_natAbs_le {i : Int} (h : i.natAbs ≤ Nat.pow 2 53) : shortest i = i :=
  if_pos h

end LinkedJson.Whole
