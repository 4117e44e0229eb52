/-!
# UTF-8 text as lists of bytes

`encode` writes a string as bytes and `decode?` reads it back: it accepts exactly what `encode`
writes (`decode?_eq_some_iff`). `decodeLossy` accepts every list of bytes. It agrees with `decode?`
on well-formed bytes (`decodeLossy_encode`) and otherwise writes one replacement character for each
maximal subpart that begins no character, which is the rule of the Encoding standard.
-/

namespace LinkedJson.Utf8

/-- The UTF-8 bytes of a string. -/
def encode (s : String) : List UInt8 :=
  s.toList.flatMap String.utf8EncodeChar

/-- The string that `bytes` write, if they are well-formed UTF-8. A leading U+FEFF is kept. -/
def decode? (bytes : List UInt8) : Option String :=
  String.fromUTF8? bytes.toByteArray

/-! ## Replacing what is not well-formed -/

/-- A character of which the first bytes are read: how many bytes are missing, the range of the
next one, and the bits read so far. -/
structure Unfinished where
  missing : Nat
  low : UInt8
  high : UInt8
  bits : Nat

/-- The character that stands for bytes that are not UTF-8. -/
def replacement : Char := '\ufffd'

/-- A byte where a character begins. The ranges of the second byte leave out the long spellings of
short characters, the surrogates and everything above U+10FFFF. -/
def stepFirst (b : UInt8) : List Char × Option Unfinished :=
  if b < 0x80 then ([Char.ofNat b.toNat], none)
  else if 0xc2 ≤ b ∧ b ≤ 0xdf then ([], some ⟨1, 0x80, 0xbf, b.toNat % 32⟩)
  else if b = 0xe0 then ([], some ⟨2, 0xa0, 0xbf, 0⟩)
  else if b = 0xed then ([], some ⟨2, 0x80, 0x9f, 13⟩)
  else if 0xe1 ≤ b ∧ b ≤ 0xef then ([], some ⟨2, 0x80, 0xbf, b.toNat % 16⟩)
  else if b = 0xf0 then ([], some ⟨3, 0x90, 0xbf, 0⟩)
  else if b = 0xf4 then ([], some ⟨3, 0x80, 0x8f, 4⟩)
  else if 0xf1 ≤ b ∧ b ≤ 0xf3 then ([], some ⟨3, 0x80, 0xbf, b.toNat % 8⟩)
  else ([replacement], none)

/-- The characters settled by one more byte. A byte that cannot continue the unfinished character
ends it, and is then read as a first byte itself. -/
def step : Option Unfinished → UInt8 → List Char × Option Unfinished
  | none, b => stepFirst b
  | some u, b =>
    if u.low ≤ b ∧ b ≤ u.high then
      let bits := u.bits * 64 + b.toNat % 64
      if u.missing ≤ 1 then ([Char.ofNat bits], none)
      else ([], some ⟨u.missing - 1, 0x80, 0xbf, bits⟩)
    else
      let (cs, next) := stepFirst b
      (replacement :: cs, next)

/-- The characters of `bytes` after an unfinished one, with replacements. -/
def replaceInvalid : Option Unfinished → List UInt8 → List Char
  | none, [] => []
  | some _, [] => [replacement]
  | u, b :: bytes => (step u b).1 ++ replaceInvalid (step u b).2 bytes

/-- The string that `bytes` write, with U+FFFD in place of what is not well-formed. -/
def decodeLossy (bytes : List UInt8) : String :=
  (decode? bytes).getD (String.ofList (replaceInvalid none bytes))

/-! ## Laws -/

theorem toByteArray_encode (s : String) : (encode s).toByteArray = s.toByteArray := by
  simp [encode, ← List.utf8Encode.eq_1, String.utf8Encode_toList]

theorem encode_append (s t : String) : encode (s ++ t) = encode s ++ encode t := by
  simp [encode]

theorem encode_injective {s t : String} (h : encode s = encode t) : s = t := by
  rw [← String.toByteArray_inj, ← toByteArray_encode, ← toByteArray_encode, h]

/-- Reading accepts exactly what writing produces. -/
theorem decode?_eq_some_iff {bytes : List UInt8} {s : String} :
    decode? bytes = some s ↔ bytes = encode s := by
  rw [← List.toByteArray_inj, toByteArray_encode, decode?, String.fromUTF8?]
  split
  · rw [Option.some.injEq, ← String.toByteArray_inj]
    rfl
  · rename_i h
    constructor
    · intro e; cases e
    · intro e; exact absurd (e ▸ s.isValidUTF8) h

@[simp] theorem decode?_encode (s : String) : decode? (encode s) = some s :=
  decode?_eq_some_iff.2 rfl

@[simp] theorem decodeLossy_encode (s : String) : decodeLossy (encode s) = s := by
  simp [decodeLossy]

end LinkedJson.Utf8
