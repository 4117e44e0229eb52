import LinkedJson.Proofs.Literal.EscapedText

/-!
# What a string literal can hold

A literal without a zero byte is read as a string without the character 0, and the string takes no
more bytes than stand between the quotes (`read_bounds`). Both follow item by item: an item is read
as no more bytes than it has, and none of them is zero unless the item has a zero byte (`Within`).
-/

namespace LinkedJson.StringLiteral

open Ascii

/-- The bytes `written` stand for those of `taken`: they are no more, and have a zero among them
only if these do. -/
structure Within (written taken : List UInt8) : Prop where
  length_le : written.length ≤ taken.length
  zero_mem : 0 ∈ written → 0 ∈ taken

theorem Within.refl (bytes : List UInt8) : Within bytes bytes :=
  ⟨Nat.le_refl _, id⟩

theorem Within.append {written taken written' taken' : List UInt8} (h : Within written taken)
    (h' : Within written' taken') : Within (written ++ written') (taken ++ taken') := by
  refine ⟨?_, fun hzero => ?_⟩
  · rw [List.length_append, List.length_append]
    exact Nat.add_le_add h.length_le h'.length_le
  · rw [List.mem_append] at hzero ⊢
    exact hzero.imp h.zero_mem h'.zero_mem

/-! ## Escapes -/

theorem of_lowSurrogate {window : Nat} {text : List UInt8} {low : Nat}
    (h : Escape.lowSurrogate window text = .ok low) :
    Utf16.isLowSurrogate low = true ∧ 6 ≤ text.length := by
  cases Escape.lowSurrogateRead h with
  | low _ _ hunit hlow =>
    have hlength := Escape.lt_length_of_codeUnit? hunit
    rw [List.length_drop] at hlength
    exact ⟨hlow, by omega⟩

theorem exists_take {text rest : List UInt8} {k : Nat} (hk : 4 ≤ k) (hlength : k ≤ text.length)
    (hrest : text.drop k = rest) : ∃ digits, text = digits ++ rest ∧ 4 ≤ digits.length := by
  refine ⟨text.take k, by rw [← hrest, List.take_append_drop], ?_⟩
  rw [List.length_take]
  omega

/-- A code point that is read is a character other than 0, and takes at least four bytes. -/
theorem of_codePoint {window : Nat} {text rest : List UInt8} {point : Nat}
    (h : Escape.codePoint window text = .ok (point, rest)) :
    point.isValidChar ∧ point ≠ 0 ∧ ∃ digits, text = digits ++ rest ∧ 4 ≤ digits.length := by
  cases Escape.codePointRead h with
  | unit _ hunit hne hlow hhigh =>
    have hlength := Escape.lt_length_of_codeUnit? hunit
    have hlt := Escape.codeUnit?_lt hunit
    simp only [Utf16.isHighSurrogate, Utf16.isLowSurrogate, Bool.and_eq_false_iff,
      decide_eq_false_iff_not] at hhigh hlow
    refine ⟨?_, hne, exists_take (Nat.le_refl 4) hlength rfl⟩
    unfold Nat.isValidChar
    omega
  | pair _ hhigh hsecond hpoint =>
    obtain ⟨hlow, hlength⟩ := of_lowSurrogate hsecond
    rw [List.length_drop] at hlength
    simp only [Utf16.isHighSurrogate, Utf16.isLowSurrogate, Bool.and_eq_true,
      decide_eq_true_eq] at hhigh hlow
    unfold Utf16.joinSurrogates at hpoint
    unfold Nat.isValidChar
    exact ⟨by omega, by omega, exists_take (by decide) (by omega) rfl⟩

theorem length_utf8EncodeChar_le (c : Char) : (String.utf8EncodeChar c).length ≤ 4 := by
  rw [String.utf8EncodeChar]
  repeat' split
  all_goals simp

theorem zero_not_mem_utf8EncodeChar {c : Char} (h : c.toNat ≠ 0) :
    0 ∉ String.utf8EncodeChar c := by
  intro hzero
  by_cases hlt : c.toNat < 0x80
  · rw [Utf8.utf8EncodeChar_of_lt hlt, List.mem_singleton] at hzero
    have := congrArg UInt8.toNat hzero
    rw [Nat.toUInt8_eq, UInt8.toNat_ofNat'] at this
    have : (0 : UInt8).toNat = 0 := rfl
    omega
  · exact absurd (Utf8.le_of_mem_utf8EncodeChar (Nat.le_of_not_lt hlt) 0 hzero) (by decide)

theorem ne_zero_of_short? {c byte : UInt8} (h : Escape.short? c = some byte) : byte ≠ 0 := by
  unfold Escape.short? at h
  split at h
  · rename_i hc
    cases h
    rcases hc with rfl | rfl | rfl <;> decide
  · repeat' split at h
    all_goals cases h
    all_goals decide

/-! ## Items -/

/-- What an item is read as is within what it takes. -/
theorem within_of_item {body written rest : List UInt8} (h : item body = .ok (written, rest)) :
    ∃ taken, body = taken ++ rest ∧ Within written taken := by
  unfold item at h
  split at h
  · cases h
  · rename_i b after
    split at h
    · cases h
      exact ⟨[b], rfl, .refl _⟩
    · split at h
      · cases h
      · rename_i c after
        split at h
        · rename_i byte hbyte
          cases h
          refine ⟨[b, c], rfl, by simp, fun hzero => ?_⟩
          exact absurd (List.mem_singleton.1 hzero).symm (ne_zero_of_short? hbyte)
        · split at h
          · cases h
          · split at h
            · cases h
            · rename_i point after' hpoint
              cases h
              obtain ⟨hvalid, hne, digits, rfl, hdigits⟩ := of_codePoint hpoint
              have hchar : (Char.ofNat point).toNat = point := by
                rw [Char.ofNat, dif_pos hvalid]
                rfl
              refine ⟨b :: c :: digits, rfl, ?_, fun hzero => ?_⟩
              · have := length_utf8EncodeChar_le (Char.ofNat point)
                simp only [List.length_cons]
                omega
              · exact absurd hzero (zero_not_mem_utf8EncodeChar (by rwa [hchar]))

theorem within_of_unescape {body out bytes : List UInt8} (h : unescape body out = .ok bytes) :
    ∃ written, bytes = out.reverse ++ written ∧ Within written body := by
  fun_induction unescape body out with
  | case1 body out hempty =>
    cases h
    refine ⟨[], (List.append_nil _).symm, ?_⟩
    rw [List.isEmpty_iff.1 hempty]
    exact .refl _
  | case2 body out hempty fault hitem => cases h
  | case3 body out hempty written rest hitem hlt ih =>
    obtain ⟨more, rfl, hmore⟩ := ih h
    obtain ⟨taken, rfl, htaken⟩ := within_of_item hitem
    exact ⟨written ++ more, by simp, htaken.append hmore⟩

/-! ## Literals -/

theorem within_of_bodyBytes {body bytes : List UInt8} (h : bodyBytes body = .ok bytes) :
    Within bytes body := by
  unfold bodyBytes at h
  split at h
  · obtain ⟨written, rfl, hwithin⟩ := within_of_unescape h
    exact hwithin
  · cases h
    exact .refl _

/-- **A literal holds its string**: the string is no longer, and has the character 0 only if the
literal has a zero byte. -/
theorem read_bounds {literal : List UInt8} {s : String} (h : read literal = .ok (s, [])) :
    (Utf8.encode s).length + 2 ≤ literal.length ∧ (0 ∉ literal → '\x00' ∉ s.toList) := by
  obtain ⟨inner, n, bytes, rfl, hn, hbytes, hs, -⟩ := read_eq_ok_iff.1 h
  obtain ⟨-, hlt⟩ := bodyLength?_bounds hn
  have hwithin := within_of_bodyBytes hbytes
  rw [Utf8.decode?_eq_some_iff.1 hs] at hwithin
  refine ⟨?_, fun hzero hmem => hzero ?_⟩
  · have := hwithin.length_le
    rw [List.length_take] at this
    rw [List.length_cons]
    omega
  · exact List.mem_cons_of_mem _
      (List.mem_of_mem_take (hwithin.zero_mem (Utf8.zero_mem_encode_iff.2 hmem)))

end LinkedJson.StringLiteral
