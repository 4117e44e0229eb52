import LinkedJson.Number.Decimal
import LinkedJson.Scan

/-!
# Number literals

A literal is an optional minus, digits, an optional point with more digits, and an optional
exponent; there is at least one digit before the exponent. Leading zeros and a point at either end
are accepted. An exponent mark that no digit follows is not part of the literal.
-/

namespace LinkedJson.NumberLiteral

open Ascii

/-- The natural number that a run of digits writes. -/
def digitsValue (digits : List UInt8) : Nat :=
  digits.foldl (fun n b => 10 * n + digitValue b) 0

/-- Takes a sign off a text: whether it is a minus, and the rest. -/
def takeMinus : List UInt8 → Bool × List UInt8
  | [] => (false, [])
  | b :: text => if b = minus then (true, text) else (false, b :: text)

/-- Takes the digits off the front of a text. -/
def takeDigits (text : List UInt8) : List UInt8 × List UInt8 :=
  (text.takeWhile isDigit, text.dropWhile isDigit)

/-- Takes a point and the digits after it, if there is a point. -/
def takeFraction : List UInt8 → List UInt8 × List UInt8
  | [] => ([], [])
  | b :: text => if b = point then takeDigits text else ([], b :: text)

/-- Takes an optional sign of an exponent. -/
def takeSign : List UInt8 → Bool × List UInt8
  | [] => (false, [])
  | b :: text => if b = plus then (false, text) else takeMinus (b :: text)

/-- Takes an exponent, or nothing where no digit follows its mark. -/
def takeExponent : List UInt8 → Int × List UInt8
  | [] => (0, [])
  | b :: text =>
    if b = 0x65 ∨ b = 0x45 then
      let (negative, unsigned) := takeSign text
      let (digits, rest) := takeDigits unsigned
      if digits.isEmpty then (0, b :: text)
      else (if negative then -(digitsValue digits : Int) else digitsValue digits, rest)
    else (0, b :: text)

/-- The decimal that a text begins with and what follows it; none where the text begins with no
number. -/
def scan? (text : List UInt8) : Option (Decimal × List UInt8) :=
  let (negative, unsigned) := takeMinus text
  let (whole, afterWhole) := takeDigits unsigned
  let (fraction, afterFraction) := takeFraction afterWhole
  if whole.isEmpty && fraction.isEmpty then none
  else
    let (exponent, rest) := takeExponent afterFraction
    some (⟨negative, digitsValue (whole ++ fraction), exponent - fraction.length⟩, rest)

/-- Reads the number literal at the front of a text: the nearest double and the text behind it. -/
def read (text : List UInt8) : Scan (Double × List UInt8) :=
  match scan? text with
  | none => .error (.badNumber, text)
  | some (d, rest) => .ok (d.toDouble, rest)

/-- Reads the number literal at an offset of a text. -/
def readAt (bytes : List UInt8) (start : Int) : Except (ReadFault × Int) (Double × Int) :=
  Scan.runAt read bytes start

end LinkedJson.NumberLiteral
