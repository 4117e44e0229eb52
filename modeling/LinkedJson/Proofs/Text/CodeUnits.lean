import LinkedJson.Proofs.Text.Encoding
import LinkedJson.Text.Ascii
import LinkedJson.Text.Utf16

/-!
# Code units and characters

A code unit that is no surrogate is a character of its own wherever it stands, so a text can be
taken apart there (`Utf16.decode_append_cons`), and the unit 0 is the zero byte of the encoded text
(`WideString.zero_mem_encode_iff`). Encoding replaces nothing exactly if every surrogate belongs to
a pair (`WideString.ofString_wellFormed_iff`).
-/

namespace LinkedJson

namespace Utf16

variable {u v : UInt16} {units front rest : List UInt16}

/-! ## Characters of units and pairs -/

theorem toNat_decodeUnit (hhigh : isHighSurrogate u.toNat = false)
    (hlow : isLowSurrogate u.toNat = false) : (decodeUnit u).toNat = u.toNat := by
  have hlt := u.toNat_lt
  have hvalid : u.toNat.isValidChar := by
    rw [← Bool.not_eq_true, isHighSurrogate_iff] at hhigh
    rw [← Bool.not_eq_true, isLowSurrogate_iff] at hlow
    unfold Nat.isValidChar
    omega
  rw [decodeUnit_of_not_surrogate hhigh hlow, Utf8.toNat_ofNat hvalid]

theorem decodeUnit_of_surrogate
    (h : isHighSurrogate u.toNat = true ∨ isLowSurrogate u.toNat = true) :
    decodeUnit u = Utf8.replacement :=
  if_pos (Bool.or_eq_true_iff.2 h)

/-- The code of a unit that belongs to no pair is that of its character, or both are from 128 on. -/
theorem code_decodeUnit (u : UInt16) :
    (decodeUnit u).toNat = u.toNat ∨ 0x80 ≤ (decodeUnit u).toNat ∧ 0x80 ≤ u.toNat := by
  by_cases hsurrogate : isHighSurrogate u.toNat = true ∨ isLowSurrogate u.toNat = true
  · have hreplaced := decodeUnit_of_surrogate hsurrogate
    rw [isHighSurrogate_iff, isLowSurrogate_iff] at hsurrogate
    exact .inr ⟨by rw [hreplaced]; decide, by omega⟩
  · rw [not_or, Bool.not_eq_true, Bool.not_eq_true] at hsurrogate
    exact .inl (toNat_decodeUnit hsurrogate.1 hsurrogate.2)

theorem toNat_joinSurrogates (hhigh : isHighSurrogate u.toNat = true)
    (hlow : isLowSurrogate v.toNat = true) :
    (Char.ofNat (joinSurrogates u.toNat v.toNat)).toNat = joinSurrogates u.toNat v.toNat := by
  have hle := joinSurrogates_le hhigh hlow
  have hvalid : (joinSurrogates u.toNat v.toNat).isValidChar := by
    unfold joinSurrogates at hle ⊢
    unfold Nat.isValidChar
    omega
  exact Utf8.toNat_ofNat hvalid

/-- A text is taken apart at a unit that is no surrogate. -/
theorem decode_append_cons (hhigh : isHighSurrogate u.toNat = false)
    (hlow : isLowSurrogate u.toNat = false) :
    decode (front ++ u :: rest) = decode front ++ decodeUnit u :: decode rest := by
  fun_induction decode front with
  | case1 => exact decode_cons_of_not_high hhigh rest
  | case2 a =>
    have hfirst : decode (a :: u :: rest) = decodeUnit a :: decode (u :: rest) :=
      decode_cons fun _ v hv => by cases hv; exact hlow
    rw [List.singleton_append, hfirst, decode_cons_of_not_high hhigh]
    rfl
  | case3 a b units hpair ih =>
    rw [Bool.and_eq_true] at hpair
    rw [List.cons_append, List.cons_append, decode_pair hpair.1 hpair.2, ih]
    rfl
  | case4 a b units hpair ih =>
    rw [List.cons_append, List.cons_append, decode, if_neg hpair, ← List.cons_append, ih]
    rfl

/-! ## The unit 0 -/

theorem decodeUnit_eq_zero_iff : decodeUnit u = '\x00' ↔ u = 0 := by
  rw [← Char.toNat_inj, ← UInt16.toNat_inj]
  have hzero : '\x00'.toNat = 0 := rfl
  have hzero' : (0 : UInt16).toNat = 0 := rfl
  have hcode := code_decodeUnit u
  omega

theorem ne_zero_of_surrogate (h : isHighSurrogate u.toNat = true ∨ isLowSurrogate u.toNat = true) :
    0 ≠ u := by
  rintro rfl
  exact absurd h (by decide)

/-- The unit 0 is the character 0. -/
theorem zero_mem_decode_iff : '\x00' ∈ decode units ↔ 0 ∈ units := by
  have hunit (u : UInt16) : '\x00' = decodeUnit u ↔ 0 = u := by
    rw [eq_comm, decodeUnit_eq_zero_iff, eq_comm]
  fun_induction decode units with
  | case1 => simp
  | case2 a => rw [List.mem_singleton, List.mem_singleton, hunit]
  | case3 a b units hpair ih =>
    rw [Bool.and_eq_true] at hpair
    have hchar : '\x00' ≠ Char.ofNat (joinSurrogates a.toNat b.toNat) := by
      intro h
      have hnat := toNat_joinSurrogates hpair.1 hpair.2
      rw [← h] at hnat
      unfold joinSurrogates at hnat
      have hzero : '\x00'.toNat = 0 := rfl
      omega
    simp [hchar, ih, ne_zero_of_surrogate (.inl hpair.1), ne_zero_of_surrogate (.inr hpair.2)]
  | case4 a b units hpair ih =>
    rw [List.mem_cons, List.mem_cons, hunit]
    exact or_congr_right ih

/-! ## Characters -/

theorem encodeChar_ne_nil {c : Char} : encodeChar c ≠ [] := by
  unfold encodeChar
  split <;> exact List.cons_ne_nil _ _

/-- A character from 128 on has no code unit below. -/
theorem le_of_mem_encodeChar {c : Char} (h : 0x80 ≤ c.toNat) :
    ∀ u ∈ encodeChar c, 0x80 ≤ u.toNat := by
  by_cases hc : c.toNat < 0x10000
  · rw [encodeChar_of_lt hc]
    exact List.forall_mem_singleton.2 (by rwa [toNat_toUInt16_of_lt hc])
  · obtain ⟨u, v, hencode, hhigh, hlow, -⟩ := encodeChar_of_le (Nat.le_of_not_lt hc)
    rw [isHighSurrogate_iff] at hhigh
    rw [isLowSurrogate_iff] at hlow
    rw [hencode]
    exact List.forall_mem_cons.2 ⟨by omega, List.forall_mem_singleton.2 (by omega)⟩

/-! ## Pairs -/

/-- Encoded characters have surrogates in pairs only. -/
theorem paired_flatMap_encodeChar (cs : List Char) : Paired (cs.flatMap encodeChar) := by
  induction cs with
  | nil => exact .nil
  | cons c cs ih =>
    rw [List.flatMap_cons]
    by_cases hc : c.toNat < 0x10000
    · obtain ⟨hhigh, hlow⟩ := not_surrogate c
      rw [← toNat_toUInt16_of_lt hc] at hhigh hlow
      rw [encodeChar_of_lt hc]
      exact .unit hhigh hlow ih
    · obtain ⟨u, v, hencode, hhigh, hlow, -⟩ := encodeChar_of_le (Nat.le_of_not_lt hc)
      rw [hencode]
      exact .pair hhigh hlow ih

theorem encodeChar_decodeUnit (hhigh : isHighSurrogate u.toNat = false)
    (hlow : isLowSurrogate u.toNat = false) : encodeChar (decodeUnit u) = [u] := by
  have hnat := toNat_decodeUnit hhigh hlow
  rw [encodeChar_of_lt (hnat ▸ u.toNat_lt), hnat]
  exact congrArg ([·]) UInt16.ofNat_toNat

theorem encodeChar_joinSurrogates (hhigh : isHighSurrogate u.toNat = true)
    (hlow : isLowSurrogate v.toNat = true) :
    encodeChar (Char.ofNat (joinSurrogates u.toNat v.toNat)) = [u, v] := by
  have hnat := toNat_joinSurrogates hhigh hlow
  obtain ⟨u', v', hencode, hhigh', hlow', hjoin⟩ :=
    encodeChar_of_le (c := Char.ofNat (joinSurrogates u.toNat v.toNat)) (by
      rw [hnat]
      unfold joinSurrogates
      omega)
  rw [hnat] at hjoin
  rw [isHighSurrogate_iff] at hhigh hhigh'
  rw [isLowSurrogate_iff] at hlow hlow'
  unfold joinSurrogates at hjoin
  have hu : u' = u := UInt16.toNat_inj.1 (by omega)
  have hv : v' = v := UInt16.toNat_inj.1 (by omega)
  rw [hencode, hu, hv]

/-- Where surrogates come in pairs only, the characters spell the same code units again. -/
theorem Paired.flatMap_decode (h : Paired units) : (decode units).flatMap encodeChar = units := by
  induction h with
  | nil => rfl
  | unit hhigh hlow _ ih =>
    rw [decode_cons_of_not_high hhigh, List.flatMap_cons, encodeChar_decodeUnit hhigh hlow, ih]
    rfl
  | pair hhigh hlow _ ih =>
    rw [decode_pair hhigh hlow, List.flatMap_cons, encodeChar_joinSurrogates hhigh hlow, ih]
    rfl

end Utf16

namespace WideString

theorem units_ofString_wellFormed (s : WideString) :
    (ofString s.wellFormed).units = (Utf16.decode s.units).flatMap Utf16.encodeChar := by
  rw [ofString, wellFormed, String.toList_ofList]

/-- **Nothing is replaced exactly if every surrogate belongs to a pair.** -/
theorem ofString_wellFormed_iff {s : WideString} :
    ofString s.wellFormed = s ↔ Utf16.Paired s.units := by
  constructor
  · intro h
    rw [← h]
    exact Utf16.paired_flatMap_encodeChar _
  · intro h
    have hunits := (units_ofString_wellFormed s).trans h.flatMap_decode
    cases s
    exact congrArg mk hunits

theorem zero_mem_wellFormed_iff {s : WideString} : '\x00' ∈ s.wellFormed.toList ↔ 0 ∈ s.units := by
  rw [wellFormed, String.toList_ofList, Utf16.zero_mem_decode_iff]

@[simp] theorem zero_mem_units_ofString {s : String} :
    0 ∈ (ofString s).units ↔ '\x00' ∈ s.toList := by
  rw [← zero_mem_wellFormed_iff, wellFormed_ofString]

/-- A zero byte is the code unit 0. -/
theorem zero_mem_encode_iff {s : WideString} : 0 ∈ s.encode ↔ 0 ∈ s.units := by
  rw [encode, Utf8.zero_mem_encode_iff, zero_mem_wellFormed_iff]

/-! ## Bytes -/

theorem encode_mk (units : List UInt16) :
    encode ⟨units⟩ = (Utf16.decode units).flatMap String.utf8EncodeChar := by
  rw [encode, wellFormed, Utf8.encode_ofList]

theorem encode_append_cons {u : UInt16} (hhigh : Utf16.isHighSurrogate u.toNat = false)
    (hlow : Utf16.isLowSurrogate u.toNat = false) (front rest : List UInt16) :
    encode ⟨front ++ u :: rest⟩ =
      encode ⟨front⟩ ++ (String.utf8EncodeChar (Utf16.decodeUnit u) ++ encode ⟨rest⟩) := by
  rw [encode_mk, Utf16.decode_append_cons hhigh hlow, List.flatMap_append, List.flatMap_cons,
    encode_mk, encode_mk]

/-- The bytes around a zero byte are those of the strings around the code unit 0. -/
theorem encode_append_zero (front rest : List UInt16) :
    encode ⟨front ++ 0 :: rest⟩ = encode ⟨front⟩ ++ 0 :: encode ⟨rest⟩ :=
  encode_append_cons rfl rfl front rest

/-- What is read of an encoded text are the bytes of the units before the first 0. -/
theorem content_encode (s : WideString) :
    content s.encode = encode ⟨s.units.takeWhile (· ≠ 0)⟩ := by
  obtain ⟨units⟩ := s
  have hunits {front : List UInt16} (h : 0 ∉ front) :
      ∀ u ∈ front, decide (u ≠ 0) = true :=
    fun u hu => decide_eq_true (ne_of_mem_of_not_mem hu h)
  by_cases hzero : 0 ∈ units
  · obtain ⟨front, rest, rfl, hfront⟩ := List.eq_append_cons_of_mem hzero
    rw [List.takeWhile_append_of_pos (hunits hfront), List.takeWhile_cons_of_neg (by decide),
      List.append_nil, encode_append_zero, content_append (mt zero_mem_encode_iff.1 hfront)]
    exact List.append_nil _
  · have hself : (units ++ []).takeWhile (· ≠ 0) = units ++ [] :=
      List.takeWhile_append_of_pos (hunits hzero)
    rw [List.append_nil] at hself
    rw [hself, content_eq_self (mt zero_mem_encode_iff.1 hzero)]

/-- Two surrogates that come together take fewer bytes than apart, and nothing else changes. -/
theorem length_encode_append_le (front rest : List UInt16) :
    (encode ⟨front ++ rest⟩).length ≤ (encode ⟨front⟩).length + (encode ⟨rest⟩).length := by
  simp only [encode_mk]
  fun_induction Utf16.decode front with
  | case1 => simp
  | case2 u =>
    rw [List.singleton_append]
    by_cases hpair : Utf16.isHighSurrogate u.toNat = true ∧
        ∃ v ∈ rest.head?, Utf16.isLowSurrogate v.toNat = true
    · obtain ⟨hhigh, v, hv, hlow⟩ := hpair
      obtain ⟨rest, rfl⟩ := List.head?_eq_some_iff.1 hv
      have hlow' : Utf16.isHighSurrogate v.toNat = false := by
        rw [← Bool.not_eq_true, Utf16.isHighSurrogate_iff]
        have := Utf16.isLowSurrogate_iff.1 hlow
        omega
      have hlength : (String.utf8EncodeChar Utf8.replacement).length = 3 := by decide
      have hpair := Char.utf8Size_le_four (.ofNat (Utf16.joinSurrogates u.toNat v.toNat))
      rw [Utf16.decode_pair hhigh hlow, Utf16.decode_cons_of_not_high hlow',
        Utf16.decodeUnit_of_surrogate (.inl hhigh), Utf16.decodeUnit_of_surrogate (.inr hlow)]
      simp only [List.flatMap_cons, List.flatMap_nil, List.append_nil, List.length_append,
        String.length_utf8EncodeChar] at hlength ⊢
      omega
    · rw [Utf16.decode_cons fun hhigh v hv => by
        rw [← Bool.not_eq_true]
        exact fun hlow => hpair ⟨hhigh, v, hv, hlow⟩]
      simp
  | case3 u v units hpair ih =>
    rw [Bool.and_eq_true] at hpair
    rw [List.cons_append, List.cons_append, Utf16.decode_pair hpair.1 hpair.2]
    simp only [List.flatMap_cons, List.length_append]
    omega
  | case4 u v units hpair ih =>
    rw [List.cons_append, List.cons_append, Utf16.decode, if_neg hpair, ← List.cons_append]
    simp only [List.flatMap_cons, List.length_append]
    omega

end WideString

end LinkedJson
