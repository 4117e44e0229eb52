import LinkedJson.Text.Utf8

/-!
# Strings as UTF-16 code units

A wide string is any list of code units: its surrogates need not come in pairs. `wellFormed` reads
the characters off the units, with U+FFFD in place of each surrogate that stands alone, and `encode`
is the bytes of these characters, which is the rule of the Encoding standard. So two wide strings
may have the same bytes. A string of characters is a wide string too, and nothing is replaced in it
(`wellFormed_ofString`).
-/

namespace LinkedJson

namespace Utf16

/-! ## Surrogates -/

def isHighSurrogate (unit : Nat) : Bool :=
  0xd800 ≤ unit && unit ≤ 0xdbff

def isLowSurrogate (unit : Nat) : Bool :=
  0xdc00 ≤ unit && unit ≤ 0xdfff

/-- The code point of a pair of surrogates. -/
def joinSurrogates (high low : Nat) : Nat :=
  0x10000 + (high - 0xd800) * 0x400 + (low - 0xdc00)

theorem isHighSurrogate_iff {unit : Nat} :
    isHighSurrogate unit = true ↔ 0xd800 ≤ unit ∧ unit ≤ 0xdbff := by
  simp [isHighSurrogate]

theorem isLowSurrogate_iff {unit : Nat} :
    isLowSurrogate unit = true ↔ 0xdc00 ≤ unit ∧ unit ≤ 0xdfff := by
  simp [isLowSurrogate]

theorem joinSurrogates_le {high low : Nat} (hhigh : isHighSurrogate high = true)
    (hlow : isLowSurrogate low = true) : joinSurrogates high low ≤ 0x10ffff := by
  rw [isHighSurrogate_iff] at hhigh
  rw [isLowSurrogate_iff] at hlow
  unfold joinSurrogates
  omega

/-! ## Characters and code units -/

/-- The code units of a character: one, or a pair of surrogates above U+FFFF. -/
def encodeChar (c : Char) : List UInt16 :=
  if c.toNat < 0x10000 then [c.toNat.toUInt16]
  else
    [(0xd800 + (c.toNat - 0x10000) / 0x400).toUInt16,
      (0xdc00 + (c.toNat - 0x10000) % 0x400).toUInt16]

/-- The character of a code unit that belongs to no pair. -/
def decodeUnit (unit : UInt16) : Char :=
  if isHighSurrogate unit.toNat || isLowSurrogate unit.toNat then Utf8.replacement
  else Char.ofNat unit.toNat

/-- The characters of code units. -/
def decode : List UInt16 → List Char
  | [] => []
  | [u] => [decodeUnit u]
  | u :: v :: units =>
    if isHighSurrogate u.toNat && isLowSurrogate v.toNat then
      Char.ofNat (joinSurrogates u.toNat v.toNat) :: decode units
    else decodeUnit u :: decode (v :: units)

/-- Every surrogate belongs to a pair. -/
inductive Paired : List UInt16 → Prop
  | nil : Paired []
  | unit {u : UInt16} {units : List UInt16} (hhigh : isHighSurrogate u.toNat = false)
    (hlow : isLowSurrogate u.toNat = false) : Paired units → Paired (u :: units)
  | pair {u v : UInt16} {units : List UInt16} (hhigh : isHighSurrogate u.toNat = true)
    (hlow : isLowSurrogate v.toNat = true) : Paired units → Paired (u :: v :: units)

end Utf16

/-- A string of UTF-16 code units, among which surrogates may stand alone. -/
structure WideString where
  units : List UInt16
  deriving Repr, DecidableEq

namespace WideString

/-- The code units of a string of characters. -/
def ofString (s : String) : WideString :=
  ⟨s.toList.flatMap Utf16.encodeChar⟩

instance : Coe String WideString :=
  ⟨ofString⟩

/-- The characters of a string, with U+FFFD in place of each surrogate that stands alone. -/
def wellFormed (s : WideString) : String :=
  .ofList (Utf16.decode s.units)

/-- The UTF-8 bytes of a string, with those of U+FFFD in place of each surrogate that stands
alone. -/
def encode (s : WideString) : List UInt8 :=
  Utf8.encode s.wellFormed

end WideString

/-! ## Laws -/

namespace Utf16

/-- A unit that begins no pair is a character of its own. -/
theorem decode_cons {u : UInt16} {units : List UInt16}
    (h : isHighSurrogate u.toNat = true → ∀ v ∈ units.head?, isLowSurrogate v.toNat = false) :
    decode (u :: units) = decodeUnit u :: decode units := by
  cases units with
  | nil => rfl
  | cons v units =>
    rw [decode, if_neg]
    intro hpair
    rw [Bool.and_eq_true] at hpair
    exact absurd hpair.2 (Bool.not_eq_true _ ▸ h hpair.1 v rfl)

theorem decode_cons_of_not_high {u : UInt16} (h : isHighSurrogate u.toNat = false)
    (units : List UInt16) : decode (u :: units) = decodeUnit u :: decode units :=
  decode_cons fun hhigh => absurd (h.symm.trans hhigh) Bool.false_ne_true

theorem decode_pair {u v : UInt16} (hhigh : isHighSurrogate u.toNat = true)
    (hlow : isLowSurrogate v.toNat = true) (units : List UInt16) :
    decode (u :: v :: units) = Char.ofNat (joinSurrogates u.toNat v.toNat) :: decode units := by
  rw [decode, hhigh, hlow]
  rfl

theorem decodeUnit_of_not_surrogate {u : UInt16} (hhigh : isHighSurrogate u.toNat = false)
    (hlow : isLowSurrogate u.toNat = false) : decodeUnit u = Char.ofNat u.toNat := by
  rw [decodeUnit, hhigh, hlow]
  rfl

theorem valid_toNat (c : Char) : c.toNat < 0xd800 ∨ 0xdfff < c.toNat ∧ c.toNat < 0x110000 :=
  c.valid

/-- The code points of characters leave out the surrogates. -/
theorem not_surrogate (c : Char) :
    isHighSurrogate c.toNat = false ∧ isLowSurrogate c.toNat = false := by
  have hvalid := valid_toNat c
  rw [← Bool.not_eq_true, ← Bool.not_eq_true, isHighSurrogate_iff, isLowSurrogate_iff]
  omega

theorem encodeChar_of_lt {c : Char} (h : c.toNat < 0x10000) :
    encodeChar c = [c.toNat.toUInt16] :=
  if_pos h

theorem toNat_toUInt16_of_lt {n : Nat} (h : n < 0x10000) : n.toUInt16.toNat = n :=
  UInt16.toNat_ofNat_of_lt' h

/-- A character above U+FFFF is the pair of its surrogates. -/
theorem encodeChar_of_le {c : Char} (h : 0x10000 ≤ c.toNat) :
    ∃ u v : UInt16, encodeChar c = [u, v] ∧ isHighSurrogate u.toNat = true ∧
      isLowSurrogate v.toNat = true ∧ joinSurrogates u.toNat v.toNat = c.toNat := by
  have hvalid := valid_toNat c
  have hu : (0xd800 + (c.toNat - 0x10000) / 0x400).toUInt16.toNat =
      0xd800 + (c.toNat - 0x10000) / 0x400 := toNat_toUInt16_of_lt (by omega)
  have hv : (0xdc00 + (c.toNat - 0x10000) % 0x400).toUInt16.toNat =
      0xdc00 + (c.toNat - 0x10000) % 0x400 := toNat_toUInt16_of_lt (by omega)
  refine ⟨_, _, if_neg (Nat.not_lt.2 h), ?_, ?_, ?_⟩
  · rw [hu, isHighSurrogate_iff]
    omega
  · rw [hv, isLowSurrogate_iff]
    omega
  · rw [hu, hv]
    unfold joinSurrogates
    omega

/-- Encoded characters are read back one by one. -/
theorem decode_encodeChar_append (c : Char) (units : List UInt16) :
    decode (encodeChar c ++ units) = c :: decode units := by
  by_cases hc : c.toNat < 0x10000
  · obtain ⟨hhigh, hlow⟩ := not_surrogate c
    have hunit := toNat_toUInt16_of_lt hc
    rw [← hunit] at hhigh hlow
    rw [encodeChar_of_lt hc, List.singleton_append, decode_cons_of_not_high hhigh,
      decodeUnit_of_not_surrogate hhigh hlow, hunit, Char.ofNat_toNat]
  · obtain ⟨u, v, hencode, hhigh, hlow, hjoin⟩ := encodeChar_of_le (Nat.le_of_not_lt hc)
    rw [hencode, List.cons_append, List.singleton_append, decode_pair hhigh hlow, hjoin,
      Char.ofNat_toNat]

theorem decode_flatMap_encodeChar (cs : List Char) : decode (cs.flatMap encodeChar) = cs := by
  induction cs with
  | nil => rfl
  | cons c cs ih => rw [List.flatMap_cons, decode_encodeChar_append, ih]

end Utf16

namespace WideString

/-- Nothing is replaced in a string of characters. -/
@[simp] theorem wellFormed_ofString (s : String) : (ofString s).wellFormed = s := by
  rw [wellFormed, ofString, Utf16.decode_flatMap_encodeChar, String.ofList_toList]

@[simp] theorem encode_ofString (s : String) : (ofString s).encode = Utf8.encode s :=
  congrArg Utf8.encode (wellFormed_ofString s)

end WideString

end LinkedJson
