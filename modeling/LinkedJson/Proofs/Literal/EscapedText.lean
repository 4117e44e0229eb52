import LinkedJson.Document.Rendering
import LinkedJson.Proofs.Literal.StringExtent
import LinkedJson.Proofs.Text.CodeUnits

/-!
# Escaped text is read back

Each byte of a text becomes one item of the body of its literal, and that item is read as the byte
again, unless it is zero (`item_escapeByte`). No item ends the literal early, so the literal of a
string without the code unit 0 is read as that string, lone surrogates being replaced
(`read_literal`). Literals have no zero byte and are well-formed text.
-/

namespace LinkedJson.StringLiteral

open Ascii

/-! ## One byte -/

theorem nibbles_lt (b : UInt8) : b.toNat / 16 < 16 ∧ b.toNat % 16 < 16 := by
  have := b.toNat_lt
  omega

theorem hexDigit_bounds {n : Nat} : n < 16 → hexDigit n ≠ quote ∧ hexDigit n ≠ backslash ∧
    0x20 ≤ (hexDigit n).toNat ∧ (hexDigit n).toNat < 0x80 := by
  revert n
  decide

theorem hexValue?_hexDigit {n : Nat} : n < 16 → hexValue? (hexDigit n) = some n := by
  revert n
  decide

/-- The letter of a short escape is printable and stands for the byte that is escaped by it. -/
theorem of_shortEscape?_eq_some {b letter : UInt8} (h : shortEscape? b = some letter) :
    Escape.short? letter = some b ∧ 0x20 ≤ letter.toNat ∧ letter.toNat < 0x80 ∧ b.toNat < 0x80 := by
  unfold shortEscape? at h
  split at h
  · rename_i hb
    cases h
    refine ⟨if_pos (hb.imp_right .inl), ?_⟩
    rcases hb with rfl | rfl <;> decide
  · repeat' split at h
    all_goals cases h
    all_goals
      subst_vars
      decide

/-- A byte stands for itself, or has a short escape, or an escape by its code. -/
theorem escapeByte_cases (b : UInt8) :
    (b ≠ quote ∧ b ≠ backslash ∧ 0x20 ≤ b.toNat ∧ escapeByte b = [b]) ∨
    (∃ letter, shortEscape? b = some letter ∧ escapeByte b = [backslash, letter]) ∨
    (b.toNat < 0x20 ∧ escapeByte b =
      [backslash, 0x75, zero, zero, hexDigit (b.toNat / 16), hexDigit (b.toNat % 16)]) := by
  unfold escapeByte
  by_cases hneeds : needsEscape b = true
  · rw [if_pos hneeds]
    right
    cases hshort : shortEscape? b with
    | some letter => exact .inl ⟨letter, rfl, rfl⟩
    | none =>
      refine .inr ⟨?_, rfl⟩
      have hb : ¬ (b = quote ∨ b = backslash) := by
        intro hb
        rw [shortEscape?, if_pos hb] at hshort
        cases hshort
      simpa [needsEscape, or_assoc, hb, UInt8.lt_iff_toNat_lt] using hneeds
  · rw [if_neg hneeds]
    left
    simp only [needsEscape, Bool.or_eq_true, decide_eq_true_eq, beq_iff_eq, not_or,
      UInt8.lt_iff_toNat_lt] at hneeds
    exact ⟨hneeds.1.2, hneeds.2, Nat.le_of_not_lt hneeds.1.1, rfl⟩

theorem codeUnit?_hexDigit {b : UInt8} (rest : List UInt8) :
    Escape.codeUnit? (zero :: zero :: hexDigit (b.toNat / 16) :: hexDigit (b.toNat % 16) :: rest) =
      some b.toNat := by
  obtain ⟨hhigh, hlow⟩ := nibbles_lt b
  have hzero : hexValue? zero = some 0 := by decide
  simp only [Escape.codeUnit?, hzero, hexValue?_hexDigit hhigh, hexValue?_hexDigit hlow]
  show some _ = some _
  congr 1
  omega

/-- The code of a byte below 32 other than zero is read as that byte. -/
theorem codePoint_hexDigit {b : UInt8} (hb : b ≠ 0) (hlt : b.toNat < 0x20) {window : Nat}
    (hwindow : 4 ≤ window) (rest : List UInt8) :
    Escape.codePoint window
        (zero :: zero :: hexDigit (b.toNat / 16) :: hexDigit (b.toNat % 16) :: rest) =
      .ok (b.toNat, rest) := by
  have hne : b.toNat ≠ 0 := fun h => hb (UInt8.toNat_inj.1 h)
  have hhigh : Utf16.isHighSurrogate b.toNat = false := by
    simp only [Utf16.isHighSurrogate, Bool.and_eq_false_iff, decide_eq_false_iff_not]
    omega
  have hlow : Utf16.isLowSurrogate b.toNat = false := by
    simp only [Utf16.isLowSurrogate, Bool.and_eq_false_iff, decide_eq_false_iff_not]
    omega
  rw [Escape.codePoint, if_neg (by omega), codeUnit?_hexDigit]
  simp [hne, hhigh, hlow]

/-- The item that a byte becomes is read as that byte. -/
theorem item_escapeByte {b : UInt8} (hb : b ≠ 0) (rest : List UInt8) :
    item (escapeByte b ++ rest) = .ok ([b], rest) := by
  rcases escapeByte_cases b with ⟨-, hne, -, h⟩ | ⟨letter, hletter, h⟩ | ⟨hlt, h⟩
  · rw [h]
    exact if_pos hne
  · rw [h]
    simp [item, (of_shortEscape?_eq_some hletter).1]
  · rw [h]
    have hwindow : 4 ≤ ((zero :: zero :: hexDigit (b.toNat / 16) :: hexDigit (b.toNat % 16) ::
        rest).take 10).length := by
      simp only [List.length_take, List.length_cons]
      omega
    have hchar : String.utf8EncodeChar (Char.ofNat b.toNat) = [b] := by
      rw [Utf8.utf8EncodeChar_of_lt] <;> rw [Utf8.toNat_ofNat_of_lt (by omega)]
      · exact congrArg (fun c => [c]) UInt8.ofNat_toNat
      · omega
    have hshort : Escape.short? 0x75 = none := by decide
    simp only [List.cons_append, List.nil_append, item, hshort, codePoint_hexDigit hb hlt hwindow,
      hchar]
    simp

/-! ## Bodies -/

theorem escape_cons (b : UInt8) (bytes : List UInt8) :
    escape (b :: bytes) = escapeByte b ++ escape bytes :=
  List.flatMap_cons ..

theorem bodyLength?_escapeByte (n : Nat) (b : UInt8) (text : List UInt8) :
    bodyLength? n (escapeByte b ++ text) = bodyLength? (n + (escapeByte b).length) text := by
  rcases escapeByte_cases b with ⟨hq, hb, -, h⟩ | ⟨letter, -, h⟩ | ⟨-, h⟩
  · rw [h, List.singleton_append, bodyLength?_plain hq hb]
    rfl
  · rw [h, List.cons_append, List.singleton_append, bodyLength?_escape]
    rfl
  · have hhigh := hexDigit_bounds (nibbles_lt b).1
    have hlow := hexDigit_bounds (nibbles_lt b).2
    rw [h]
    simp only [List.cons_append, List.nil_append, bodyLength?_escape, List.length_cons,
      List.length_nil]
    rw [bodyLength?_plain (by decide) (by decide), bodyLength?_plain (by decide) (by decide),
      bodyLength?_plain hhigh.1 hhigh.2.1, bodyLength?_plain hlow.1 hlow.2.1]

/-- The quote behind an escaped text is the first that no backslash precedes. -/
theorem bodyLength?_escape_quote (n : Nat) (bytes rest : List UInt8) :
    bodyLength? n (escape bytes ++ quote :: rest) = some (n + (escape bytes).length) := by
  induction bytes generalizing n with
  | nil => exact bodyLength?_quote n rest
  | cons b bytes ih =>
    rw [escape_cons, List.append_assoc, bodyLength?_escapeByte, ih, List.length_append,
      Nat.add_assoc]

theorem unescape_of_item {body written rest : List UInt8} (h : item body = .ok (written, rest))
    (out : List UInt8) : unescape body out = unescape rest (written.reverse ++ out) := by
  have hne : ¬ body.isEmpty = true := by
    intro hnil
    rw [List.isEmpty_iff.1 hnil] at h
    cases h
  rw [unescape, if_neg hne]
  split
  · rename_i herror
    rw [h] at herror
    cases herror
  · rename_i hok
    rw [h] at hok
    cases hok
    rfl

theorem unescape_nil (out : List UInt8) : unescape [] out = .ok out.reverse := by
  rw [unescape]
  rfl

/-- The escapes of a text are replaced by its bytes, whatever follows them. -/
theorem unescape_escape_append {bytes : List UInt8} (h : 0 ∉ bytes) (rest out : List UInt8) :
    unescape (escape bytes ++ rest) out = unescape rest (bytes.reverse ++ out) := by
  induction bytes generalizing out with
  | nil => rfl
  | cons b bytes ih =>
    rw [List.mem_cons, not_or] at h
    rw [escape_cons, List.append_assoc, unescape_of_item (item_escapeByte (Ne.symm h.1) _), ih h.2]
    simp

theorem unescape_escape {bytes : List UInt8} (h : 0 ∉ bytes) :
    unescape (escape bytes) [] = .ok bytes := by
  have hall := unescape_escape_append h [] []
  rwa [List.append_nil, List.append_nil, unescape_nil, List.reverse_reverse] at hall

theorem escape_eq_self {bytes : List UInt8} (h : ∀ b ∈ bytes, escapeByte b = [b]) :
    escape bytes = bytes := by
  induction bytes with
  | nil => rfl
  | cons b bytes ih =>
    obtain ⟨hb, hbytes⟩ := List.forall_mem_cons.1 h
    rw [escape_cons, hb, ih hbytes, List.singleton_append]

/-- What is escaped begins with a backslash. -/
theorem escapeByte_eq_self {b : UInt8} (h : backslash ∉ escapeByte b) : escapeByte b = [b] := by
  rcases escapeByte_cases b with ⟨-, -, -, hb⟩ | ⟨letter, -, hb⟩ | ⟨-, hb⟩
  · exact hb
  · exact absurd (by rw [hb]; exact List.mem_cons_self) h
  · exact absurd (by rw [hb]; exact List.mem_cons_self) h

theorem bodyBytes_escape {bytes : List UInt8} (h : 0 ∉ bytes) :
    bodyBytes (escape bytes) = .ok bytes := by
  unfold bodyBytes
  split
  · exact unescape_escape h
  · rename_i hcontains
    have hplain : backslash ∉ escape bytes := by simpa using hcontains
    rw [escape_eq_self fun b hb => escapeByte_eq_self fun hmem =>
      hplain (List.mem_flatMap.2 ⟨b, hb, hmem⟩)]

/-! ## Literals -/

/-- **The literal of a string is read as the string**, with its lone surrogates replaced, if the
code unit 0 does not occur in it. -/
theorem read_literal {s : WideString} (h : 0 ∉ s.units) :
    read (literal s) = .ok (s.wellFormed, []) := by
  have hbytes : 0 ∉ s.encode := mt WideString.zero_mem_encode_iff.1 h
  refine read_eq_ok_iff.2 ⟨escape s.encode ++ [quote], _, _, rfl,
    bodyLength?_escape_quote 0 _ [], ?_, Utf8.decode?_encode s.wellFormed, ?_⟩
  · rw [Nat.zero_add, List.take_left]
    exact bodyBytes_escape hbytes
  · rw [Nat.zero_add, List.drop_eq_nil_of_le]
    exact Nat.le_of_eq List.length_append

/-- The literal has nothing but what is well-formed in the string. -/
theorem literal_wellFormed (s : WideString) : literal s.wellFormed = literal s := by
  rw [literal, WideString.encode_ofString]
  rfl

/-! ## The bytes of a literal -/

/-- What a byte becomes is printable, and below 128 unless it is the byte itself. -/
theorem mem_escapeByte {b c : UInt8} (h : c ∈ escapeByte b) :
    0x20 ≤ c.toNat ∧ (c.toNat < 0x80 ∨ c = b) := by
  rcases escapeByte_cases b with ⟨-, -, hle, hb⟩ | ⟨letter, hletter, hb⟩ | ⟨-, hb⟩
  · rw [hb, List.mem_singleton] at h
    subst h
    exact ⟨hle, .inr rfl⟩
  · obtain ⟨-, hle, hlt, -⟩ := of_shortEscape?_eq_some hletter
    rw [hb, List.mem_cons, List.mem_singleton] at h
    rcases h with rfl | rfl
    · exact ⟨by decide, .inl (by decide)⟩
    · exact ⟨hle, .inl hlt⟩
  · have hhigh := (hexDigit_bounds (nibbles_lt b).1).2.2
    have hlow := (hexDigit_bounds (nibbles_lt b).2).2.2
    have hall : ∀ x ∈ escapeByte b, 0x20 ≤ x.toNat ∧ x.toNat < 0x80 := by
      rw [hb]
      simp only [List.forall_mem_cons]
      exact ⟨by decide, by decide, by decide, by decide, hhigh, hlow, by simp⟩
    exact ⟨(hall c h).1, .inl (hall c h).2⟩

/-- Bytes from 128 on are not escaped. -/
theorem escapeByte_of_le {b : UInt8} (h : 0x80 ≤ b.toNat) : escapeByte b = [b] := by
  rcases escapeByte_cases b with ⟨-, -, -, hb⟩ | ⟨letter, hletter, -⟩ | ⟨hlt, -⟩
  · exact hb
  · have := (of_shortEscape?_eq_some hletter).2.2.2
    omega
  · omega

theorem wellFormed_escape (s : String) : Utf8.WellFormed (escape (Utf8.encode s)) := by
  have hflat : escape (Utf8.encode s) =
      s.toList.flatMap fun c => escape (String.utf8EncodeChar c) := List.flatMap_assoc
  rw [hflat]
  refine Utf8.wellFormed_flatMap fun c _ => ?_
  by_cases hc : c.toNat < 0x80
  · rw [Utf8.utf8EncodeChar_of_lt hc]
    refine Utf8.wellFormed_of_lt fun b hb => ?_
    rw [escape_cons, escape, List.flatMap_nil, List.append_nil] at hb
    rcases (mem_escapeByte hb).2 with hlt | rfl
    · exact hlt
    · rw [Nat.toUInt8_eq, UInt8.toNat_ofNat']
      omega
  · have hle := Utf8.le_of_mem_utf8EncodeChar (Nat.le_of_not_lt hc)
    rw [escape_eq_self fun b hb => escapeByte_of_le (hle b hb)]
    exact Utf8.wellFormed_utf8EncodeChar c

theorem wellFormed_literal (s : WideString) : Utf8.WellFormed (literal s) := by
  have hquote : Utf8.WellFormed [quote] := ⟨"\"", by decide⟩
  exact (hquote.append (wellFormed_escape s.wellFormed)).append hquote

theorem zero_not_mem_quoted (bytes : List UInt8) : 0 ∉ quote :: escape bytes ++ [quote] := by
  intro h
  rw [List.mem_append, List.mem_cons, escape, List.mem_flatMap] at h
  rcases h with (h | ⟨b, -, h⟩) | h
  · exact absurd h (by decide)
  · exact absurd (mem_escapeByte h).1 (by decide)
  · exact absurd h (by decide)

end LinkedJson.StringLiteral
