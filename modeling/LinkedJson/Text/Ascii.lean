/-!
# The bytes that give a document its structure

Names for the single bytes of the notation, the classes of digits and blanks, and the content of a
text: every reader stops at the first zero byte.
-/

namespace LinkedJson

namespace Ascii

abbrev lineFeed : UInt8 := 0x0a
abbrev quote : UInt8 := 0x22
abbrev plus : UInt8 := 0x2b
abbrev comma : UInt8 := 0x2c
abbrev minus : UInt8 := 0x2d
abbrev point : UInt8 := 0x2e
abbrev slash : UInt8 := 0x2f
abbrev zero : UInt8 := 0x30
abbrev nine : UInt8 := 0x39
abbrev colon : UInt8 := 0x3a
abbrev openBracket : UInt8 := 0x5b
abbrev backslash : UInt8 := 0x5c
abbrev closeBracket : UInt8 := 0x5d
abbrev openBrace : UInt8 := 0x7b
abbrev closeBrace : UInt8 := 0x7d

/-- The digits 0 to 9. -/
def isDigit (b : UInt8) : Bool :=
  zero ≤ b && b ≤ nine

/-- The value of a digit. -/
def digitValue (b : UInt8) : Nat :=
  b.toNat - zero.toNat

/-- The value of a hexadecimal digit of either case. -/
def hexValue? (b : UInt8) : Option Nat :=
  if isDigit b then some (digitValue b)
  else if 0x41 ≤ b ∧ b ≤ 0x46 then some (b.toNat - 0x41 + 10)
  else if 0x61 ≤ b ∧ b ≤ 0x66 then some (b.toNat - 0x61 + 10)
  else none

/-- What may stand between tokens: every byte from 1 to 32. -/
def isBlank (b : UInt8) : Bool :=
  1 ≤ b && b ≤ 0x20

theorem isDigit_iff {b : UInt8} : isDigit b = true ↔ 0x30 ≤ b.toNat ∧ b.toNat ≤ 0x39 := by
  simp only [isDigit, Bool.and_eq_true, decide_eq_true_eq, UInt8.le_iff_toNat_le]
  rfl

theorem isBlank_iff {b : UInt8} : isBlank b = true ↔ 1 ≤ b.toNat ∧ b.toNat ≤ 0x20 := by
  simp only [isBlank, Bool.and_eq_true, decide_eq_true_eq, UInt8.le_iff_toNat_le]
  rfl

theorem hexValue?_lt {b : UInt8} {n : Nat} (h : hexValue? b = some n) : n < 16 := by
  unfold hexValue? at h
  split at h
  · rename_i hdigit
    have := isDigit_iff.1 hdigit
    have hzero : zero.toNat = 0x30 := rfl
    cases h
    unfold digitValue
    omega
  · split at h
    · rename_i hupper
      have hF : (0x46 : UInt8).toNat = 0x46 := rfl
      cases h
      simp only [UInt8.le_iff_toNat_le] at hupper
      omega
    · split at h
      · rename_i hlower
        have hf : (0x66 : UInt8).toNat = 0x66 := rfl
        cases h
        simp only [UInt8.le_iff_toNat_le] at hlower
        omega
      · cases h

end Ascii

/-- The part of a text that is read: everything before its first zero byte. -/
def content (bytes : List UInt8) : List UInt8 :=
  bytes.takeWhile (· ≠ 0)

/-- Drops the blanks a text begins with. -/
def skipBlanks (text : List UInt8) : List UInt8 :=
  text.dropWhile Ascii.isBlank

/-- The text from a place on. Nothing can be read from a place before the beginning. -/
def textFrom (bytes : List UInt8) (i : Int) : List UInt8 :=
  if i < 0 then [] else bytes.drop i.toNat

/-- The byte at a place, and 0 outside of the text. -/
def byteOrZero (bytes : List UInt8) (i : Int) : UInt8 :=
  (textFrom bytes i).headD 0

theorem content_eq_self {bytes : List UInt8} (h : 0 ∉ bytes) : content bytes = bytes := by
  induction bytes with
  | nil => rfl
  | cons b bytes ih =>
    rw [List.mem_cons, not_or] at h
    have hb : decide (b ≠ 0) = true := decide_eq_true (Ne.symm h.1)
    rw [content, List.takeWhile_cons, if_pos hb]
    exact congrArg (b :: ·) (ih h.2)

theorem zero_not_mem_content (bytes : List UInt8) : 0 ∉ content bytes := by
  intro h
  have hall : (content bytes).all (fun b => decide (b ≠ 0)) = true := List.all_takeWhile
  exact absurd (List.all_eq_true.1 hall 0 h) (by decide)

theorem content_isPrefix (bytes : List UInt8) : content bytes <+: bytes :=
  List.takeWhile_prefix _

theorem content_append {front : List UInt8} (h : 0 ∉ front) (rest : List UInt8) :
    content (front ++ rest) = front ++ content rest :=
  List.takeWhile_append_of_pos fun _ hb => decide_eq_true (ne_of_mem_of_not_mem hb h)

@[simp] theorem textFrom_natCast (bytes : List UInt8) (i : Nat) :
    textFrom bytes i = bytes.drop i :=
  if_neg (Int.not_lt.2 (Int.natCast_nonneg i))

end LinkedJson
