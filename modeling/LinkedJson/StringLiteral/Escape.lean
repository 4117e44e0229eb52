import LinkedJson.Scan
import LinkedJson.Text.Utf16

/-!
# Escapes

Inside a string literal a backslash begins an escape: one of eight short ones, or `u` with the four
hexadecimal digits of a UTF-16 code unit. A code point above U+FFFF takes two such escapes, a high
and a low surrogate. The code unit 0 and unpaired surrogates are refused.

All that can come of a Unicode escape is listed once, in `CodePointRead`: what is to be shown of
every escape is shown case by case.
-/

namespace LinkedJson

namespace Escape

open Ascii

/-- The byte that a short escape stands for, by the byte after its backslash. -/
def short? (b : UInt8) : Option UInt8 :=
  if b = quote ∨ b = backslash ∨ b = slash then some b
  else if b = 0x62 then some 0x08
  else if b = 0x66 then some 0x0c
  else if b = 0x6e then some 0x0a
  else if b = 0x72 then some 0x0d
  else if b = 0x74 then some 0x09
  else none

/-- The code unit written by the four hexadecimal digits at the front of a text. -/
def codeUnit? : List UInt8 → Option Nat
  | a :: b :: c :: d :: _ => do
    let a ← hexValue? a
    let b ← hexValue? b
    let c ← hexValue? c
    let d ← hexValue? d
    return ((a * 16 + b) * 16 + c) * 16 + d
  | _ => none

/-- The text begins with a backslash and a `u`. -/
def startsUnicode : List UInt8 → Bool
  | a :: b :: _ => a == backslash && b == 0x75
  | _ => false

/-- Reads the second escape of a surrogate pair, of which `window` bytes belong to the literal. -/
def lowSurrogate (window : Nat) (text : List UInt8) : Except ReadFault Nat :=
  if window < 6 ∨ ¬ startsUnicode text then .error .unpairedSurrogate
  else match codeUnit? (text.drop 2) with
    | none => .error .badLowSurrogate
    | some unit =>
      if Utf16.isLowSurrogate unit then .ok unit else .error .badLowSurrogate

/-- Reads a Unicode escape from its digits on, with `window` bytes of the literal from there: the
code point and the text behind it. -/
def codePoint (window : Nat) (text : List UInt8) : Except ReadFault (Nat × List UInt8) :=
  if window < 4 then .error .incompleteUnicodeEscape
  else match codeUnit? text with
    | none => .error .badUnicodeEscape
    | some unit =>
      if unit = 0 ∨ Utf16.isLowSurrogate unit then .error .badUnicodeEscape
      else if ¬ Utf16.isHighSurrogate unit then .ok (unit, text.drop 4)
      else do
        let low ← lowSurrogate (window - 4) (text.drop 4)
        let point := Utf16.joinSurrogates unit low
        if 0x10ffff < point then .error .codePointOutOfRange
        else .ok (point, text.drop 10)

/-- Reads the Unicode escape at an offset of a text, in a literal that ends at another: the code
point and the offset behind it. The two bytes in front of the digits are not looked at. -/
def codePointAt (bytes : List UInt8) (start stop : Int) : Except (ReadFault × Int) (Nat × Int) :=
  let text := textFrom bytes (start + 2)
  match codePoint (stop - (start + 2)).toNat text with
  | .ok (point, rest) => .ok (point, start + 2 + (text.length - rest.length : Nat))
  | .error fault => .error (fault, start)

theorem lt_length_of_codeUnit? {text : List UInt8} {unit : Nat} (h : codeUnit? text = some unit) :
    3 < text.length := by
  unfold codeUnit? at h
  split at h
  · simp only [List.length_cons]
    omega
  · cases h

theorem codeUnit?_lt {text : List UInt8} {unit : Nat} (h : codeUnit? text = some unit) :
    unit < 0x10000 := by
  unfold codeUnit? at h
  split at h
  · rename_i a b c d rest
    cases ha : hexValue? a <;> cases hb : hexValue? b <;> cases hc : hexValue? c <;>
      cases hd : hexValue? d <;> simp [ha, hb, hc, hd] at h
    have := hexValue?_lt ha
    have := hexValue?_lt hb
    have := hexValue?_lt hc
    have := hexValue?_lt hd
    omega
  · cases h

/-- What the second escape of a surrogate pair is read as, in a window and a text. -/
inductive LowSurrogateRead (window : Nat) (text : List UInt8) : Except ReadFault Nat → Prop
  | unpaired : LowSurrogateRead window text (.error .unpairedSurrogate)
  | bad : LowSurrogateRead window text (.error .badLowSurrogate)
  | low {unit : Nat} (hwindow : 6 ≤ window) (hstarts : startsUnicode text = true)
    (hunit : codeUnit? (text.drop 2) = some unit) (hlow : Utf16.isLowSurrogate unit = true) :
    LowSurrogateRead window text (.ok unit)

theorem lowSurrogateRead {window : Nat} {text : List UInt8} {r : Except ReadFault Nat}
    (h : lowSurrogate window text = r) : LowSurrogateRead window text r := by
  unfold lowSurrogate at h
  split at h
  · exact h ▸ .unpaired
  · rename_i hstarts
    rw [not_or, Decidable.not_not] at hstarts
    split at h
    · exact h ▸ .bad
    · rename_i unit hunit
      split at h
      · rename_i hlow
        exact h ▸ .low (Nat.le_of_not_lt hstarts.1) hstarts.2 hunit hlow
      · exact h ▸ .bad

/-- What a Unicode escape is read as, in a window and a text. -/
inductive CodePointRead (window : Nat) (text : List UInt8) :
    Except ReadFault (Nat × List UInt8) → Prop
  | incomplete : CodePointRead window text (.error .incompleteUnicodeEscape)
  | bad : CodePointRead window text (.error .badUnicodeEscape)
  | badPair {fault : ReadFault}
    (hsecond : lowSurrogate (window - 4) (text.drop 4) = .error fault) :
    CodePointRead window text (.error fault)
  | unit {unit : Nat} (hwindow : 4 ≤ window) (hunit : codeUnit? text = some unit) (hne : unit ≠ 0)
    (hlow : Utf16.isLowSurrogate unit = false) (hhigh : Utf16.isHighSurrogate unit = false) :
    CodePointRead window text (.ok (unit, text.drop 4))
  | pair {high low point : Nat} (hunit : codeUnit? text = some high)
    (hhigh : Utf16.isHighSurrogate high = true)
    (hsecond : lowSurrogate (window - 4) (text.drop 4) = .ok low)
    (hpoint : point = Utf16.joinSurrogates high low) :
    CodePointRead window text (.ok (point, text.drop 10))

/-- Two surrogates never make a code point that is too large. -/
theorem codePointRead {window : Nat} {text : List UInt8} {r : Except ReadFault (Nat × List UInt8)}
    (h : codePoint window text = r) : CodePointRead window text r := by
  unfold codePoint at h
  split at h
  · exact h ▸ .incomplete
  · rename_i hwindow
    split at h
    · exact h ▸ .bad
    · rename_i unit hunit
      split at h
      · exact h ▸ .bad
      · rename_i hfirst
        rw [not_or, Bool.not_eq_true] at hfirst
        split at h
        · rename_i hhigh
          rw [Bool.not_eq_true] at hhigh
          exact h ▸ .unit (Nat.le_of_not_lt hwindow) hunit hfirst.1 hfirst.2 hhigh
        · rename_i hhigh
          rw [Decidable.not_not] at hhigh
          cases hsecond : lowSurrogate (window - 4) (text.drop 4) with
          | error fault =>
            simp only [hsecond, bind, Except.bind] at h
            exact h ▸ .badPair hsecond
          | ok low =>
            simp only [hsecond, bind, Except.bind] at h
            split at h
            · rename_i hrange
              cases lowSurrogateRead hsecond with
              | low _ _ _ hlow =>
                exact absurd hrange (Nat.not_lt.2 (Utf16.joinSurrogates_le hhigh hlow))
            · exact h ▸ .pair hunit hhigh hsecond rfl

/-- A Unicode escape takes at least four bytes from its digits on. -/
theorem length_lt_of_codePoint {window : Nat} {text rest : List UInt8} {point : Nat}
    (h : codePoint window text = .ok (point, rest)) : rest.length < text.length := by
  cases codePointRead h with
  | unit hwindow hunit _ _ _ =>
    have hlength := lt_length_of_codeUnit? hunit
    rw [List.length_drop]
    omega
  | pair hunit _ _ _ =>
    have hlength := lt_length_of_codeUnit? hunit
    rw [List.length_drop]
    omega

end Escape

end LinkedJson
