import LinkedJson.Proofs.Grammar.Acceptance
import LinkedJson.Proofs.Grammar.Meaning
import LinkedJson.Proofs.Literal.EscapedText
import LinkedJson.Proofs.Literal.NumberText

/-!
# Strict text is read as the standard has it

A string whose escapes are paired is read as the characters that it spells (`read_stringBytes`), so
every token of a strict derivation is a token of the grammar of the reader, with its standard value
as its reading (`Value.exists_value`). The reader builds the one tree that a strict text denotes
(`Document.read_strict`).
-/

namespace LinkedJson.Strict

open Ascii

/-! ## Items of a string -/

theorem ne_of_isHexDigit {d : UInt8} (h : (hexValue? d).isSome = true) :
    d ≠ quote ∧ d ≠ backslash ∧ d ≠ 0 := by
  refine ⟨?_, ?_, ?_⟩ <;>
  · rintro rfl
    exact absurd h (by decide)

theorem short?_of_mem {letter : UInt8}
    (h : letter ∈ [quote, backslash, slash, 0x62, 0x66, 0x6e, 0x72, 0x74]) :
    ∃ byte, Escape.short? letter = some byte ∧
      String.utf8EncodeChar (shortCharacter letter) = [byte] := by
  simp only [List.mem_cons, List.not_mem_nil, or_false] at h
  rcases h with rfl | rfl | rfl | rfl | rfl | rfl | rfl | rfl <;> exact ⟨_, rfl, by decide⟩

/-- The bytes of a character that stands for itself are neither quotes nor backslashes. -/
theorem ne_of_mem_plain {c : Char} (h : 0x20 ≤ c.toNat ∧ c ≠ '"' ∧ c ≠ '\\') :
    ∀ b ∈ String.utf8EncodeChar c, b ≠ quote ∧ b ≠ backslash ∧ b ≠ 0 := by
  intro b hb
  by_cases hlt : c.toNat < 0x80
  · rw [Utf8.utf8EncodeChar_of_lt hlt, List.mem_singleton] at hb
    have hnat : b.toNat = c.toNat := by
      rw [hb, Nat.toUInt8_eq, UInt8.toNat_ofNat']
      omega
    refine ⟨?_, ?_, ?_⟩ <;> rintro rfl
    · exact h.2.1 (Char.toNat_inj.1 hnat.symm)
    · exact h.2.2 (Char.toNat_inj.1 hnat.symm)
    · have : (0 : UInt8).toNat = 0 := rfl
      omega
  · have hle := Utf8.le_of_mem_utf8EncodeChar (Nat.le_of_not_lt hlt) b hb
    refine ⟨?_, ?_, ?_⟩ <;> rintro rfl <;> exact absurd hle (by decide)

theorem bodyLength?_of_ne {bytes : List UInt8} (h : ∀ b ∈ bytes, b ≠ quote ∧ b ≠ backslash)
    (n : Nat) (text : List UInt8) :
    StringLiteral.bodyLength? n (bytes ++ text) =
      StringLiteral.bodyLength? (n + bytes.length) text := by
  induction bytes generalizing n with
  | nil => rfl
  | cons b bytes ih =>
    obtain ⟨hb, hbytes⟩ := List.forall_mem_cons.1 h
    rw [List.cons_append, StringLiteral.bodyLength?_plain hb.1 hb.2, ih hbytes, List.length_cons]
    congr 1
    omega

/-- No item ends a literal. -/
theorem bodyLength?_item (item : StringItem) (n : Nat) (text : List UInt8) :
    StringLiteral.bodyLength? n (item.bytes ++ text) =
      StringLiteral.bodyLength? (n + item.bytes.length) text := by
  cases item with
  | plain c h => exact bodyLength?_of_ne (fun b hb => (ne_of_mem_plain h b hb).imp_right And.left) n text
  | short letter h => exact StringLiteral.bodyLength?_escape n letter text
  | code digits h =>
    have hdigits : ∀ b ∈ digits, b ≠ quote ∧ b ≠ backslash :=
      fun b hb => (ne_of_isHexDigit (h.2 b hb)).imp_right And.left
    simp only [StringItem.bytes, List.cons_append, StringLiteral.bodyLength?_escape,
      bodyLength?_of_ne hdigits, List.length_cons]
    congr 1
    omega

theorem bodyLength?_items (items : List StringItem) (n : Nat) (text : List UInt8) :
    StringLiteral.bodyLength? n (items.flatMap StringItem.bytes ++ quote :: text) =
      some (n + (items.flatMap StringItem.bytes).length) := by
  induction items generalizing n with
  | nil => exact StringLiteral.bodyLength?_quote n text
  | cons item items ih =>
    rw [List.flatMap_cons, List.append_assoc, bodyLength?_item, ih, List.length_append,
      Nat.add_assoc]

theorem unescape_plain {bytes : List UInt8} (h : ∀ b ∈ bytes, b ≠ backslash)
    (rest out : List UInt8) : StringLiteral.unescape (bytes ++ rest) out =
      StringLiteral.unescape rest (bytes.reverse ++ out) := by
  induction bytes generalizing out with
  | nil => rfl
  | cons b bytes ih =>
    obtain ⟨hb, hbytes⟩ := List.forall_mem_cons.1 h
    have hitem : StringLiteral.item (b :: (bytes ++ rest)) = .ok ([b], bytes ++ rest) := if_pos hb
    rw [List.cons_append, StringLiteral.unescape_of_item hitem, ih hbytes]
    simp

/-- An escape by code is read through its code point. -/
theorem item_code {after rest : List UInt8} {c : Char}
    (h : Escape.codePoint (after.take 10).length after = .ok (c.toNat, rest)) :
    StringLiteral.item (backslash :: 0x75 :: after) = .ok (String.utf8EncodeChar c, rest) := by
  have hshort : Escape.short? 0x75 = none := by decide
  simp only [StringLiteral.item, ne_eq, not_true_eq_false, if_false, hshort, h, Char.ofNat_toNat]

theorem codePoint_of_char {digits : List UInt8}
    (h : digits.length = 4 ∧ ∀ d ∈ digits, (hexValue? d).isSome = true) {c : Char}
    (hc : c.toNat = codeUnit digits) (hne : codeUnit digits ≠ 0) {window : Nat}
    (hwindow : 4 ≤ window) (rest : List UInt8) :
    Escape.codePoint window (digits ++ rest) = .ok (c.toNat, rest) := by
  have hvalid : c.toNat < 0xd800 ∨ 0xdfff < c.toNat := by
    have : c.toNat.isValidChar := c.valid
    unfold Nat.isValidChar at this
    omega
  have hhigh : Utf16.isHighSurrogate (codeUnit digits) = false := by
    simp only [Utf16.isHighSurrogate, Bool.and_eq_false_iff, decide_eq_false_iff_not]
    omega
  have hlow : Utf16.isLowSurrogate (codeUnit digits) = false := by
    simp only [Utf16.isLowSurrogate, Bool.and_eq_false_iff, decide_eq_false_iff_not]
    omega
  have hdrop : (digits ++ rest).drop 4 = rest := by rw [← h.1, List.drop_left]
  simp [Escape.codePoint, Nat.not_lt.2 hwindow, (exists_codeUnit h).1 rest, hhigh, hlow, hne, hc,
    hdrop]

theorem codePoint_of_pair {high low : List UInt8}
    (hhigh : high.length = 4 ∧ ∀ d ∈ high, (hexValue? d).isSome = true)
    (hlow : low.length = 4 ∧ ∀ d ∈ low, (hexValue? d).isSome = true)
    (hfirst : Utf16.isHighSurrogate (codeUnit high) = true)
    (hsecond : Utf16.isLowSurrogate (codeUnit low) = true) {c : Char}
    (hc : c.toNat = Utf16.joinSurrogates (codeUnit high) (codeUnit low)) (rest : List UInt8) :
    Escape.codePoint 10 (high ++ backslash :: 0x75 :: (low ++ rest)) = .ok (c.toNat, rest) := by
  have hdrop : (high ++ backslash :: 0x75 :: (low ++ rest)).drop 4 =
      backslash :: 0x75 :: (low ++ rest) := by
    rw [← hhigh.1, List.drop_left]
  have hdrop' : (high ++ backslash :: 0x75 :: (low ++ rest)).drop 10 = rest := by
    rw [show (10 : Nat) = high.length + (2 + low.length) by omega, ← List.drop_drop, List.drop_left,
      ← List.drop_drop]
    exact List.drop_left
  have hnot_low : Utf16.isLowSurrogate (codeUnit high) = false := by
    cases hcase : Utf16.isLowSurrogate (codeUnit high) with
    | false => rfl
    | true =>
      rw [not_isHighSurrogate_of_isLowSurrogate hcase] at hfirst
      cases hfirst
  have hne : codeUnit high ≠ 0 := by
    intro hzero
    rw [hzero] at hfirst
    cases hfirst
  have hrange := Nat.not_lt.2 (Utf16.joinSurrogates_le hfirst hsecond)
  simp only [Escape.codePoint, (exists_codeUnit hhigh).1, hne, hnot_low, hfirst, hdrop,
    Escape.lowSurrogate, Escape.startsUnicode]
  simp [(exists_codeUnit hlow).1, hsecond, hrange, hc, hdrop', bind, Except.bind]

/-- The escapes of a string are replaced by the characters that it spells. -/
theorem unescape_items {items : List StringItem} {cs : List Char} (h : Spells items cs)
    (hnonzero : ∀ item ∈ items, item.unit? ≠ some 0) (out : List UInt8) :
    StringLiteral.unescape (items.flatMap StringItem.bytes) out =
      .ok (out.reverse ++ cs.flatMap String.utf8EncodeChar) := by
  induction h generalizing out with
  | nil =>
    rw [List.flatMap_nil, List.flatMap_nil, List.append_nil, StringLiteral.unescape]
    rfl
  | @plain c hc items cs hitems ih =>
    obtain ⟨-, hnonzero⟩ := List.forall_mem_cons.1 hnonzero
    rw [List.flatMap_cons, StringItem.bytes, unescape_plain fun b hb => (ne_of_mem_plain hc b hb).2.1,
      ih hnonzero]
    simp
  | @short letter hletter items cs hitems ih =>
    obtain ⟨-, hnonzero⟩ := List.forall_mem_cons.1 hnonzero
    obtain ⟨byte, hbyte, hchar⟩ := short?_of_mem hletter
    have hitem : StringLiteral.item (backslash :: letter :: items.flatMap StringItem.bytes) =
        .ok ([byte], items.flatMap StringItem.bytes) := by
      simp [StringLiteral.item, hbyte]
    rw [List.flatMap_cons, StringItem.bytes, List.cons_append, List.singleton_append,
      StringLiteral.unescape_of_item hitem, ih hnonzero]
    simp [hchar]
  | @code digits hdigits c items cs hc hitems ih =>
    obtain ⟨hne, hnonzero⟩ := List.forall_mem_cons.1 hnonzero
    have hunit : codeUnit digits ≠ 0 := fun hzero => hne (congrArg some hzero)
    have hwindow : 4 ≤ ((digits ++ items.flatMap StringItem.bytes).take 10).length := by
      simp only [List.length_take, List.length_append]
      omega
    rw [List.flatMap_cons, StringItem.bytes, List.cons_append, List.cons_append,
      StringLiteral.unescape_of_item (item_code (codePoint_of_char hdigits hc hunit hwindow _)),
      ih hnonzero]
    simp
  | @pair high hhigh low hlow c items cs hfirst hsecond hc hitems ih =>
    obtain ⟨-, hnonzero⟩ := List.forall_mem_cons.1 hnonzero
    obtain ⟨-, hnonzero⟩ := List.forall_mem_cons.1 hnonzero
    have hpoint := codePoint_of_pair hhigh hlow hfirst hsecond hc (items.flatMap StringItem.bytes)
    have hwindow : ((high ++ backslash :: 0x75 ::
        (low ++ items.flatMap StringItem.bytes)).take 10).length = 10 := by
      simp only [List.length_take, List.length_append, List.length_cons]
      omega
    rw [← hwindow] at hpoint
    simp only [List.flatMap_cons, StringItem.bytes, List.cons_append]
    rw [StringLiteral.unescape_of_item (item_code hpoint), ih hnonzero]
    simp

/-- Without a backslash every character stands for itself. -/
theorem flatMap_bytes_eq {items : List StringItem} {cs : List Char} (h : Spells items cs)
    (hplain : backslash ∉ items.flatMap StringItem.bytes) :
    items.flatMap StringItem.bytes = cs.flatMap String.utf8EncodeChar := by
  induction h with
  | nil => rfl
  | plain hitems ih =>
    rw [List.flatMap_cons, List.mem_append, not_or] at hplain
    rw [List.flatMap_cons, List.flatMap_cons, ih hplain.2]
    rfl
  | short | code | pair =>
    exact absurd (List.mem_append_left _ List.mem_cons_self) hplain

/-- **A string is read as the characters that it spells**, if none of its escapes is 0. -/
theorem read_stringBytes {items : List StringItem} {cs : List Char} (h : Spells items cs)
    (hnonzero : ∀ item ∈ items, item.unit? ≠ some 0) :
    StringLiteral.read (stringBytes items) = .ok (.ofList cs, []) := by
  refine StringLiteral.read_eq_ok_iff.2 ⟨items.flatMap StringItem.bytes ++ [quote], _,
    Utf8.encode (.ofList cs), rfl, bodyLength?_items items 0 [], ?_, Utf8.decode?_encode _, ?_⟩
  · rw [Nat.zero_add, List.take_left, Utf8.encode_ofList, StringLiteral.bodyBytes]
    split
    · exact unescape_items h hnonzero []
    · rename_i hcontains
      exact congrArg Except.ok (flatMap_bytes_eq h (by simpa using hcontains))
  · rw [Nat.zero_add, List.drop_eq_nil_of_le]
    exact Nat.le_of_eq List.length_append

/-! ## Values as derivations of the reader's grammar -/

theorem Paired.unit?_ne_zero {items : List StringItem} (h : Paired items) :
    ∀ item ∈ items, item.unit? ≠ some 0 := by
  intro item hitem
  obtain ⟨i, hi, rfl⟩ := List.getElem_of_mem hitem
  have := h.nonzero i
  rwa [unitAt?, List.getElem?_eq_getElem hi] at this

def Blanks.toGrammar (w : Blanks) : Grammar.Blanks where
  bytes := w.bytes
  isBlank b hb := by
    rcases w.isBlank b hb with rfl | rfl | rfl | rfl <;> decide

theorem exists_stringToken {items : List StringItem} {cs : List Char} (h : Spells items cs)
    (hpaired : Paired items) :
    ∃ token : Grammar.StringToken, token.literal = stringBytes items ∧
      token.value = .ofList cs :=
  ⟨⟨_, _, read_stringBytes h hpaired.unit?_ne_zero⟩, rfl, rfl⟩

/-- A number begins with its sign or with a digit. -/
theorem Number.head (n : Number) : ∃ b ∈ n.bytes.head?, b = minus ∨ isDigit b = true := by
  rw [NumberLiteral.Parts.bytes]
  cases n.negative with
  | true => exact ⟨minus, rfl, .inl rfl⟩
  | false =>
    obtain ⟨b, digits, hb⟩ := List.exists_cons_of_ne_nil n.whole_ne_nil
    refine ⟨b, ?_, .inr (n.whole_isDigit b (hb ▸ List.mem_cons_self))⟩
    rw [hb]
    rfl

theorem exists_numberToken {n : Number} {d : Double}
    (h : Double.Rounds n.negative n.magnitude d) :
    ∃ token : Grammar.NumberToken, token.literal = n.bytes ∧ token.value = d := by
  have hread := NumberLiteral.read_bytes_append n.toParts NumberLiteral.stops_nil
  rw [List.append_nil, n.rounds_toDouble.unique h] at hread
  exact ⟨⟨_, _, hread, n.head⟩, rfl, rfl⟩

mutual

/-- A strict value that denotes a tree is a value of the reader's grammar that denotes it. -/
theorem Value.exists_value : ∀ {v : Value} {t : JsonTree}, v.Denotes t →
    (∀ items ∈ v.strings, Paired items) →
    ∃ g : Grammar.Value, g.bytes = v.bytes ∧ g.tree = t ∧ g.nesting = v.nesting
  | .null, _, .null, _ => ⟨.null, rfl, rfl, rfl⟩
  | .bool value, _, .bool, _ => ⟨.bool value, by cases value <;> rfl, rfl, rfl⟩
  | .string items, _, .string h, hpaired => by
    obtain ⟨token, hliteral, hvalue⟩ := exists_stringToken h (hpaired items List.mem_cons_self)
    exact ⟨.string token, hliteral, by rw [Grammar.Value.tree, hvalue], rfl⟩
  | .number n, _, .number h, _ => by
    obtain ⟨token, hliteral, hvalue⟩ := exists_numberToken h
    exact ⟨.number token, hliteral, by rw [Grammar.Value.tree, hvalue], rfl⟩
  | .emptyArray inside, _, .emptyArray, _ => ⟨.emptyArray inside.toGrammar, rfl, rfl, rfl⟩
  | .array items, _, .array h, hpaired => by
    obtain ⟨g, hbytes, htrees, hnesting⟩ := Items.exists_items h hpaired
    refine ⟨.array g, ?_, ?_, ?_⟩
    · rw [Grammar.Value.bytes, hbytes, Value.bytes]
    · rw [Grammar.Value.tree, htrees]
    · rw [Grammar.Value.nesting, hnesting, Value.nesting]
  | .emptyObject inside, _, .emptyObject, _ => ⟨.emptyObject inside.toGrammar, rfl, rfl, rfl⟩
  | .object members, _, .object h, hpaired => by
    obtain ⟨g, hbytes, htrees, hnesting⟩ := Members.exists_members h hpaired
    refine ⟨.object g, ?_, ?_, ?_⟩
    · rw [Grammar.Value.bytes, hbytes, Value.bytes]
    · rw [Grammar.Value.tree, htrees]
    · rw [Grammar.Value.nesting, hnesting, Value.nesting]

theorem Items.exists_items : ∀ {items : Items} {ts : List JsonTree}, items.Denote ts →
    (∀ string ∈ items.strings, Paired string) →
    ∃ g : Grammar.Items, g.bytes = items.bytes ∧ g.trees = ts ∧ g.nesting = items.nesting
  | .last before value after, _, .last h, hpaired => by
    obtain ⟨g, hbytes, htree, hnesting⟩ := Value.exists_value h hpaired
    refine ⟨.last before.toGrammar g after.toGrammar, ?_, ?_, hnesting⟩
    · rw [Grammar.Items.bytes, hbytes]
      rfl
    · rw [Grammar.Items.trees, htree]
  | .more before value after rest, _, .more h hrest, hpaired => by
    obtain ⟨g, hbytes, htree, hnesting⟩ :=
      Value.exists_value h fun s hs => hpaired s (List.mem_append_left _ hs)
    obtain ⟨gs, hbytes', htrees, hnesting'⟩ :=
      Items.exists_items hrest fun s hs => hpaired s (List.mem_append_right _ hs)
    refine ⟨.more before.toGrammar g after.toGrammar gs, ?_, ?_, ?_⟩
    · rw [Grammar.Items.bytes, hbytes, hbytes']
      rfl
    · rw [Grammar.Items.trees, htree, htrees]
    · rw [Grammar.Items.nesting, hnesting, hnesting', Items.nesting]

theorem Members.exists_members : ∀ {members : Members} {ts : List JsonTree}, members.Denote ts →
    (∀ string ∈ members.strings, Paired string) →
    ∃ g : Grammar.Members, g.bytes = members.bytes ∧ g.trees = ts ∧ g.nesting = members.nesting
  | .last before name beforeColon afterColon value after, _, .last hname h, hpaired => by
    obtain ⟨token, hliteral, hvalue⟩ := exists_stringToken hname (hpaired name List.mem_cons_self)
    obtain ⟨g, hbytes, htree, hnesting⟩ :=
      Value.exists_value h fun s hs => hpaired s (List.mem_cons_of_mem _ hs)
    refine ⟨.last before.toGrammar token beforeColon.toGrammar afterColon.toGrammar g
      after.toGrammar, ?_, ?_, hnesting⟩
    · rw [Grammar.Members.bytes, hliteral, hbytes]
      rfl
    · rw [Grammar.Members.trees, htree, hvalue]
  | .more before name beforeColon afterColon value after rest, _, .more hname h hrest, hpaired => by
    obtain ⟨token, hliteral, hvalue⟩ := exists_stringToken hname (hpaired name List.mem_cons_self)
    obtain ⟨g, hbytes, htree, hnesting⟩ := Value.exists_value h fun s hs =>
      hpaired s (List.mem_cons_of_mem _ (List.mem_append_left _ hs))
    obtain ⟨gs, hbytes', htrees, hnesting'⟩ := Members.exists_members hrest fun s hs =>
      hpaired s (List.mem_cons_of_mem _ (List.mem_append_right _ hs))
    refine ⟨.more before.toGrammar token beforeColon.toGrammar afterColon.toGrammar g
      after.toGrammar gs, ?_, ?_, ?_⟩
    · rw [Grammar.Members.bytes, hliteral, hbytes, hbytes']
      rfl
    · rw [Grammar.Members.trees, htree, htrees, hvalue]
    · rw [Grammar.Members.nesting, hnesting, hnesting', Members.nesting]

end

/-! ## Strict text has no zero byte -/

theorem Blanks.zero_not_mem (w : Blanks) : 0 ∉ w.bytes := by
  intro h
  rcases w.isBlank 0 h with h | h | h | h <;> exact absurd h (by decide)

theorem zero_not_mem_stringBytes (items : List StringItem) : 0 ∉ stringBytes items := by
  have hitem : ∀ item : StringItem, 0 ∉ item.bytes := by
    intro item h
    cases item with
    | plain c hc => exact (ne_of_mem_plain hc 0 h).2.2 rfl
    | short letter hletter =>
      rw [StringItem.bytes, List.mem_cons, List.mem_singleton] at h
      rcases h with h | rfl
      · exact absurd h (by decide)
      · exact absurd hletter (by decide)
    | code digits hdigits =>
      rw [StringItem.bytes, List.mem_cons, List.mem_cons] at h
      rcases h with h | h | h
      · exact absurd h (by decide)
      · exact absurd h (by decide)
      · exact (ne_of_isHexDigit (hdigits.2 0 h)).2.2 rfl
  intro h
  rw [stringBytes, List.mem_append, List.mem_cons, List.mem_flatMap] at h
  rcases h with (h | ⟨item, -, h⟩) | h
  · exact absurd h (by decide)
  · exact hitem item h
  · exact absurd h (by decide)

mutual

theorem Value.zero_not_mem : ∀ v : Value, 0 ∉ v.bytes
  | .null | .bool true | .bool false => by decide
  | .string items => zero_not_mem_stringBytes items
  | .number n => n.zero_not_mem_bytes
  | .emptyArray inside => by simp [Value.bytes, inside.zero_not_mem, openBracket, closeBracket]
  | .array items => by simp [Value.bytes, items.zero_not_mem, openBracket, closeBracket]
  | .emptyObject inside => by simp [Value.bytes, inside.zero_not_mem, openBrace, closeBrace]
  | .object members => by simp [Value.bytes, members.zero_not_mem, openBrace, closeBrace]

theorem Items.zero_not_mem : ∀ items : Items, 0 ∉ items.bytes
  | .last before value after => by
    simp [Items.bytes, before.zero_not_mem, value.zero_not_mem, after.zero_not_mem]
  | .more before value after rest => by
    simp [Items.bytes, before.zero_not_mem, value.zero_not_mem, after.zero_not_mem,
      rest.zero_not_mem, comma]

theorem Members.zero_not_mem : ∀ members : Members, 0 ∉ members.bytes
  | .last before name beforeColon afterColon value after => by
    simp [Members.bytes, before.zero_not_mem, zero_not_mem_stringBytes name,
      beforeColon.zero_not_mem, afterColon.zero_not_mem, value.zero_not_mem, after.zero_not_mem,
      colon]
  | .more before name beforeColon afterColon value after rest => by
    simp [Members.bytes, before.zero_not_mem, zero_not_mem_stringBytes name,
      beforeColon.zero_not_mem, afterColon.zero_not_mem, value.zero_not_mem, after.zero_not_mem,
      rest.zero_not_mem, colon, comma]

end

theorem Text.zero_not_mem (d : Text) : 0 ∉ d.bytes := by
  simp [Text.bytes, d.before.zero_not_mem, d.value.zero_not_mem, d.after.zero_not_mem]

end LinkedJson.Strict

namespace LinkedJson.Document

/-- A text of the strict grammar without a zero or an unpaired surrogate among its escapes, whose
containers nest no deeper than the limit, denotes one tree, and that is the tree that is read, to
the end of the text. -/
theorem read_strict (options : ReadOptions) (d : Strict.Text) (hwhole : options.whole = true)
    (hlength : ∀ limit ∈ options.maxLength, (d.bytes.length : Int) ≤ limit)
    (hpaired : ∀ items ∈ d.value.strings, Strict.Paired items)
    (hdepth : (d.value.nesting : Int) ≤ options.maxDepth) :
    ∃ t, (∀ u, d.value.Denotes u ↔ u = t) ∧
      Document.read options none d.bytes = .ok ⟨t, d.bytes.length⟩ := by
  have hread : ∀ u, d.value.Denotes u →
      Document.read options none d.bytes = .ok ⟨u, d.bytes.length⟩ := by
    intro u hu
    obtain ⟨g, hbytes, rfl, hnesting⟩ := Strict.Value.exists_value hu hpaired
    have hcontent := content_eq_self d.zero_not_mem
    have hne : d.bytes ≠ [] := by
      obtain ⟨b, tail, hb, -⟩ := g.exists_cons
      rw [Strict.Text.bytes, ← hbytes, hb]
      exact List.append_ne_nil_of_right_ne_nil _ (List.cons_ne_nil b _)
    have h := read_of_text hwhole hne (ReadOptions.tooLong_eq_none_iff.2 hlength)
      ⟨d.before.toGrammar, g, d.after.toGrammar⟩
      (by rw [hcontent, Strict.Text.bytes, ← hbytes]; rfl) (by rw [hnesting]; omega)
    rwa [hcontent] at h
  obtain ⟨t, ht⟩ := d.value.exists_denotes hpaired
  refine ⟨t, fun u => ⟨fun hu => ?_, ?_⟩, hread t ht⟩
  · have h := (hread u hu).symm.trans (hread t ht)
    simpa using h
  · rintro rfl
    exact ht

end LinkedJson.Document
