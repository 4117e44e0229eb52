import LinkedJson.Proofs.Literal.StringLanguage
import LinkedJson.Proofs.Reading.Terminator
import LinkedJson.Proofs.Writing.Storage

/-!
# Written literals are read back

A literal that is written into a buffer stands at the offset with a zero byte behind it, so reading
at the offset sees the literal and nothing else (`Buffer.exists_writeLiteral`). What is read is the
string that was written, unless it holds the character 0: that one is escaped like any other byte
below 32, and its escape is refused (`Buffer.readAt_writeLiteral`).
-/

namespace LinkedJson

open Ascii

namespace StringLiteral

/-! ## Escaped text -/

theorem body_escape (bytes : List UInt8) : Body (escape bytes) := by
  induction bytes with
  | nil => exact .nil
  | cons b bytes ih =>
    rw [escape_cons]
    rcases escapeByte_cases b with ⟨hquote, hbackslash, -, h⟩ | ⟨letter, -, h⟩ | ⟨-, h⟩
    · rw [h]
      exact .plain hquote hbackslash ih
    · rw [h]
      exact .escape ih
    · have hhigh := hexDigit_bounds (nibbles_lt b).1
      have hlow := hexDigit_bounds (nibbles_lt b).2
      rw [h]
      exact .escape (.plain (by decide) (by decide) (.plain (by decide) (by decide)
        (.plain hhigh.1 hhigh.2.1 (.plain hlow.1 hlow.2.1 ih))))

/-- The escape of the zero byte is refused. -/
theorem item_escape_zero (rest : List UInt8) :
    item (escape (0 :: rest)) = .error .badUnicodeEscape := by
  have hescape : escapeByte 0 = [backslash, 0x75, zero, zero, zero, zero] := by decide
  have hshort : Escape.short? 0x75 = none := by decide
  have hunit : Escape.codeUnit? (zero :: zero :: zero :: zero :: escape rest) = some 0 :=
    @codeUnit?_hexDigit 0 (escape rest)
  have hwindow : ¬ ((zero :: zero :: zero :: zero :: escape rest).take 10).length < 4 := by
    simp only [List.length_take, List.length_cons]
    omega
  have hpoint : Escape.codePoint ((zero :: zero :: zero :: zero :: escape rest).take 10).length
      (zero :: zero :: zero :: zero :: escape rest) = .error .badUnicodeEscape := by
    rw [Escape.codePoint, if_neg hwindow, hunit]
    rfl
  rw [escape_cons, hescape]
  simp only [List.cons_append, List.nil_append, item, hshort, hpoint]
  rfl

/-- Replacing the escapes of a text stops at its first zero byte. -/
theorem unescape_escape_zero {front : List UInt8} (h : 0 ∉ front) (rest : List UInt8) :
    unescape (escape (front ++ 0 :: rest)) [] = .error (.badUnicodeEscape, escape (0 :: rest)) := by
  have hsplit : escape (front ++ 0 :: rest) = escape front ++ escape (0 :: rest) :=
    List.flatMap_append
  have hne : escape (0 :: rest) ≠ [] :=
    List.append_ne_nil_of_left_ne_nil (List.cons_ne_nil _ _) (escape rest)
  rw [hsplit, unescape_escape_append h, unescape_of_fault hne (item_escape_zero rest)]

end StringLiteral

namespace Buffer

open StringLiteral

variable {b b' : Buffer} {o : Nat}

/-! ## Writing a literal -/

/-- Room is granted where the budget allows the growth. -/
theorem exists_reserve? {needed : Nat} (hgrowable : b.growable = true) (hoffset : b.offset = o)
    (hlimit : o + needed ≤ greatestLength)
    (hbudget : b.capacity < o + needed → b.budget.allows (grownSize (o + needed)) = true) :
    ∃ b', b.reserve? needed = some b' := by
  have hrequired : (b.offset + needed).toNat = o + needed := by omega
  unfold reserve?
  simp only [hrequired, hgrowable]
  rw [if_neg (by omega)]
  split
  · exact ⟨b, rfl⟩
  · rename_i hfull
    rw [if_neg (by simp; omega), ByteBudget.grant?, if_pos (hbudget (by omega))]
    exact ⟨_, rfl⟩

/-- Room at an offset makes what lies in front of it settled, even where the offset was behind the
end of the storage. -/
theorem exists_settled_of_reserve? {needed : Nat} (hoffset : b.offset = o)
    (h : b.reserve? needed = some b') :
    ∃ out : List UInt8, out.length = o ∧ Settled b' out ∧ o + needed ≤ b'.capacity := by
  obtain ⟨hoffset', hroom⟩ := capacity_of_reserve? h
  have hlength : b'.storage.toList.length = b'.capacity := Array.length_toList
  have htake : (b'.storage.toList.take o).length = o := by
    rw [List.length_take, hlength]
    omega
  refine ⟨b'.storage.toList.take o, htake, ⟨?_, List.take_prefix ..⟩, by omega⟩
  rw [hoffset', hoffset, htake]

/-- **A literal is written**, with a zero byte behind it, wherever there is room for it. -/
theorem exists_writeLiteral (bytes : List UInt8) (hgrowable : b.growable = true)
    (hoffset : b.offset = o) (hlimit : o + (escapedLength bytes + 3) ≤ greatestLength)
    (hbudget : b.capacity < o + (escapedLength bytes + 3) →
      b.budget.allows (grownSize (o + (escapedLength bytes + 3))) = true) :
    ∃ b' out, b.writeLiteral bytes = .ok b' ∧ out.length = o ∧
      Pending b' out (quote :: escape bytes ++ [quote]) := by
  have hlength : (quote :: escape bytes ++ [quote]).length + 1 = escapedLength bytes + 3 := by
    simp [length_escape]
  obtain ⟨b₁, hreserve⟩ := exists_reserve? hgrowable hoffset hlimit hbudget
  obtain ⟨out, hout, hsettled, hroom⟩ := exists_settled_of_reserve? hoffset hreserve
  have hpending := hsettled.putAll (zero_not_mem_quoted bytes) (by omega)
  refine ⟨_, out, ?_, hout, hpending⟩
  rw [writeLiteral_eq (by omega), hlength, write?, hreserve]
  rfl

/-! ## Reading it back -/

/-- What is read at the offset is the token that is written there. -/
theorem Pending.content_eq {out token : List UInt8} (h : Pending b out token) :
    content (textFrom b.storage.toList out.length) = token := by
  obtain ⟨tail, htail⟩ := h.storage
  rw [textFrom_natCast, ← htail, List.append_assoc, List.drop_left, List.append_assoc]
  exact content_terminated h.zero_not_mem tail

/-- **Writing a string and reading it back gives the string**, up to where the offset settles, if
it does not hold the code unit 0. Lone surrogates are replaced, so it is the same string exactly if
every surrogate belongs to a pair. If it does hold the code unit 0, the escape of the first 0 is the
fault. -/
theorem readAt_writeLiteral {v : WideString} (hgrowable : b.growable = true)
    (hoffset : b.offset = o) (hlimit : o + (escapedLength v.encode + 3) ≤ greatestLength)
    (hbudget : b.capacity < o + (escapedLength v.encode + 3) →
      b.budget.allows (grownSize (o + (escapedLength v.encode + 3))) = true) :
    ∃ b', b.writeLiteral v.encode = .ok b' ∧
      b'.settle.offset = o + (escapedLength v.encode + 2 : Nat) ∧
      (0 ∉ v.units → readAt b'.storage.toList o = .ok (v.wellFormed, b'.settle.offset)) ∧
      (v.wellFormed = v ↔ Utf16.Paired v.units) ∧
      ∀ front rest, v.units = front ++ 0 :: rest → 0 ∉ front →
        (readAt b'.storage.toList o).mapError coded =
          .error (.invalidUnicodeEscape, o + 1 + escapedLength (WideString.mk front).encode) := by
  obtain ⟨b', out, hwrite, hout, hpending⟩ :=
    exists_writeLiteral v.encode hgrowable hoffset hlimit hbudget
  have hcontent := hpending.content_eq
  have hlength : (quote :: escape v.encode ++ [quote]).length = escapedLength v.encode + 2 := by
    simp [length_escape]
  have hsettle : b'.settle.offset = o + (escapedLength v.encode + 2 : Nat) := by
    rw [hpending.settle.offset_eq, List.length_append, hlength, hout, Nat.cast_add]
  rw [hout] at hcontent
  refine ⟨b', hwrite, hsettle, fun hzero => ?_, WideString.ofString_wellFormed_iff, ?_⟩
  · have hread : read (content (textFrom b'.storage.toList o)) = .ok (v.wellFormed, []) := by
      rw [hcontent]
      exact read_literal hzero
    rw [hsettle, ← hlength]
    exact readAt_of_ok hread (congrArg List.length hcontent)
  · intro front rest hunits hfront
    obtain rfl : v = ⟨front ++ 0 :: rest⟩ := congrArg WideString.mk hunits
    have hfront' : 0 ∉ (WideString.mk front).encode := mt WideString.zero_mem_encode_iff.1 hfront
    have hencode := WideString.encode_append_zero front rest
    have hread := read_quoted (body_escape (WideString.mk (front ++ 0 :: rest)).encode) []
    rw [← hcontent, hencode, unescape_escape_zero hfront'] at hread
    have hplace : (content (textFrom b'.storage.toList o)).length =
        1 + escapedLength (WideString.mk front).encode +
          (escape (0 :: (WideString.mk rest).encode) ++ [quote]).length := by
      rw [hcontent, hencode, escape, List.flatMap_append, ← escape, ← escape, ← length_escape]
      simp only [List.length_append, List.length_cons]
      omega
    rw [readAt_of_error hread hplace, Nat.cast_add, ← Int.add_assoc]
    rfl

theorem readAt_writeLiteral_behind_comma :
    (∃ b', (Buffer.mk #[comma] 1 true .unlimited).writeLiteral (Utf8.encode "\né") = .ok b' ∧
      readAt b'.storage.toList 1 = .ok ("\né", 7)) ∧
    ∃ b', (Buffer.mk #[comma] 1 true .unlimited).writeLiteral (Utf8.encode "\n\x00a") = .ok b' ∧
      (readAt b'.storage.toList 1).mapError coded = .error (.invalidUnicodeEscape, 4) := by
  constructor
  · obtain ⟨b', hwrite, hsettle, hread, -⟩ :=
      @readAt_writeLiteral ⟨#[comma], 1, true, .unlimited⟩ 1 "\né" rfl rfl (by decide) (by decide)
    exact ⟨b', hwrite, (hread (by decide)).trans (by rw [hsettle]; rfl)⟩
  · obtain ⟨b', hwrite, -, -, -, hread⟩ :=
      @readAt_writeLiteral ⟨#[comma], 1, true, .unlimited⟩ 1 "\n\x00a" rfl rfl (by decide)
        (by decide)
    exact ⟨b', hwrite, hread [0x0a] [0x61] rfl (by decide)⟩

/-- **A lone surrogate does not come back.** It is written as U+FFFD, which is read as another
string. -/
theorem readAt_writeLiteral_unpaired :
    0 ∉ (WideString.mk [0xd800]).units ∧
      (∃ b', (Buffer.mk #[] 0 true .unlimited).writeLiteral (WideString.mk [0xd800]).encode =
          .ok b' ∧
        readAt b'.storage.toList 0 = .ok ("\ufffd", 5)) ∧
      WideString.ofString "\ufffd" ≠ ⟨[0xd800]⟩ := by
  refine ⟨by decide, ⟨_, rfl, ?_⟩, by decide⟩
  rfl

end Buffer

end LinkedJson
