import LinkedJson.Text.Ascii

/-!
# Writing string literals

Quotes, backslashes and the bytes below 32 are escaped, five of the latter in a short form and the
others by their code. All other bytes stand as they are.
-/

namespace LinkedJson.StringLiteral

open Ascii

/-- The byte may not stand in a literal as it is. -/
def needsEscape (b : UInt8) : Bool :=
  b < 0x20 || b == quote || b == backslash

/-- The letter of the short escape of a byte. -/
def shortEscape? (b : UInt8) : Option UInt8 :=
  if b = quote ∨ b = backslash then some b
  else if b = 0x08 then some 0x62
  else if b = 0x0c then some 0x66
  else if b = 0x0a then some 0x6e
  else if b = 0x0d then some 0x72
  else if b = 0x09 then some 0x74
  else none

/-- The lower-case hexadecimal digit of a number below 16. -/
def hexDigit (n : Nat) : UInt8 :=
  (if n < 10 then 0x30 + n else 0x57 + n).toUInt8

/-- A byte as it stands in a literal. -/
def escapeByte (b : UInt8) : List UInt8 :=
  if needsEscape b then
    match shortEscape? b with
    | some letter => [backslash, letter]
    | none => [backslash, 0x75, zero, zero, hexDigit (b.toNat / 16), hexDigit (b.toNat % 16)]
  else [b]

/-- The body of the literal of a text. -/
def escape (bytes : List UInt8) : List UInt8 :=
  bytes.flatMap escapeByte

/-- How many bytes the body of a literal needs for one byte. -/
def escapedWidth (b : UInt8) : Nat :=
  if (shortEscape? b).isSome then 2 else if b < 0x20 then 6 else 1

/-- How many bytes the body of a literal needs. -/
def escapedLength : List UInt8 → Nat
  | [] => 0
  | b :: bytes => escapedWidth b + escapedLength bytes

theorem length_escapeByte (b : UInt8) : (escapeByte b).length = escapedWidth b := by
  unfold escapeByte escapedWidth needsEscape shortEscape?
  grind

theorem length_escape (bytes : List UInt8) : (escape bytes).length = escapedLength bytes := by
  induction bytes with
  | nil => rfl
  | cons b bytes ih =>
    simp only [escape, escapedLength, List.flatMap_cons, List.length_append, length_escapeByte]
    exact congrArg _ ih

end LinkedJson.StringLiteral
