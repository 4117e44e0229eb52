import LinkedJson.Proofs.Grammar.Strict
import LinkedJson.Proofs.Writing.LayoutBlanks
import LinkedJson.Proofs.Writing.Printing

/-!
# Printed text is strict

The text of a tree without raw values is derived by the strict grammar. Each character of a string
is one item of its literal (`Strict.exists_item`), the digits in front of a point are those of a
natural number and have no zero to spare (`Strict.leading_toDigits`), and the layouts use only
spaces, tabs and line feeds as blanks. So whatever is printed is strict (`JsonTree.print_strict`).
-/

namespace LinkedJson.Strict

open Ascii

/-! ## Strings -/

theorem mem_of_shortEscape? {b letter : UInt8}
    (h : StringLiteral.shortEscape? b = some letter) :
    letter ∈ [quote, backslash, slash, 0x62, 0x66, 0x6e, 0x72, 0x74] := by
  unfold StringLiteral.shortEscape? at h
  split at h
  · rename_i hb
    cases h
    rcases hb with rfl | rfl <;> simp
  · repeat' split at h
    all_goals cases h
    all_goals simp

/-- The bytes of a character are escaped to one item. -/
theorem exists_item (c : Char) :
    ∃ item : StringItem, item.bytes = StringLiteral.escape (String.utf8EncodeChar c) := by
  by_cases hc : c.toNat < 0x80
  · have hb : c.toNat.toUInt8.toNat = c.toNat := by
      rw [Nat.toUInt8_eq, UInt8.toNat_ofNat']
      omega
    rw [Utf8.utf8EncodeChar_of_lt hc, StringLiteral.escape_cons, StringLiteral.escape,
      List.flatMap_nil, List.append_nil]
    rcases StringLiteral.escapeByte_cases c.toNat.toUInt8 with
      ⟨hquote, hbackslash, hle, h⟩ | ⟨letter, hletter, h⟩ | ⟨-, h⟩
    · have hplain : 0x20 ≤ c.toNat ∧ c ≠ '"' ∧ c ≠ '\\' := by
        refine ⟨hb ▸ hle, ?_, ?_⟩
        · rintro rfl
          exact hquote rfl
        · rintro rfl
          exact hbackslash rfl
      refine ⟨.plain c hplain, ?_⟩
      rw [h]
      exact Utf8.utf8EncodeChar_of_lt hc
    · exact ⟨.short letter (mem_of_shortEscape? hletter), h.symm⟩
    · have hdigit {n : Nat} (hn : n < 16) : (hexValue? (StringLiteral.hexDigit n)).isSome = true := by
        rw [StringLiteral.hexValue?_hexDigit hn]
        rfl
      obtain ⟨hhigh, hlow⟩ := StringLiteral.nibbles_lt c.toNat.toUInt8
      refine ⟨.code _ ⟨rfl, ?_⟩, h.symm⟩
      simp only [List.forall_mem_cons]
      exact ⟨by decide, by decide, hdigit hhigh, hdigit hlow, List.forall_mem_nil _⟩
  · have hle := Utf8.le_of_mem_utf8EncodeChar (Nat.le_of_not_lt hc)
    have hplain : 0x20 ≤ c.toNat ∧ c ≠ '"' ∧ c ≠ '\\' := by
      refine ⟨by omega, ?_, ?_⟩
      · rintro rfl
        exact hc (by decide)
      · rintro rfl
        exact hc (by decide)
    refine ⟨.plain c hplain, ?_⟩
    rw [StringLiteral.escape_eq_self fun b hb => StringLiteral.escapeByte_of_le (hle b hb)]
    rfl

/-- The literal of a string is derived. -/
theorem exists_string (s : WideString) :
    ∃ items : List StringItem, stringBytes items = StringLiteral.literal s := by
  have hchars : ∀ cs : List Char, ∃ items : List StringItem,
      items.flatMap StringItem.bytes = StringLiteral.escape (cs.flatMap String.utf8EncodeChar) := by
    intro cs
    induction cs with
    | nil => exact ⟨[], rfl⟩
    | cons c cs ih =>
      obtain ⟨items, hitems⟩ := ih
      obtain ⟨item, hitem⟩ := exists_item c
      refine ⟨item :: items, ?_⟩
      rw [List.flatMap_cons, hitem, hitems, List.flatMap_cons, StringLiteral.escape,
        StringLiteral.escape, StringLiteral.escape, List.flatMap_append]
  obtain ⟨items, hitems⟩ := hchars s.wellFormed.toList
  refine ⟨items, ?_⟩
  rw [stringBytes, hitems]
  rfl

/-! ## Numbers -/

/-- Only zero begins with the digit zero. -/
theorem head?_toDigits {n : Nat} (hn : 0 < n) : ∀ c ∈ (Nat.toDigits 10 n).head?, c ≠ '0' := by
  induction n using Nat.strongRecOn with
  | ind n ih =>
    by_cases hlt : n < 10
    · rw [Nat.toDigits_of_lt_base hlt]
      intro c hc
      cases hc
      rw [Ne, Nat.digitChar_eq_zero]
      omega
    · obtain ⟨d, digits, hdigits⟩ := List.exists_cons_of_ne_nil (@Nat.toDigits_ne_nil (n / 10) 10)
      have hfirst := ih (n / 10) (by omega) (by omega)
      rw [hdigits] at hfirst
      rw [Nat.toDigits_of_base_le (by omega) (Nat.le_of_not_lt hlt), hdigits]
      exact hfirst

/-- The digits of a natural number are a zero, or do not begin with one. -/
theorem leading_toDigits (n : Nat) :
    Utf8.encode (.ofList (Nat.toDigits 10 n)) = [zero] ∨
      ∀ b ∈ (Utf8.encode (.ofList (Nat.toDigits 10 n))).head?, b ≠ zero := by
  rcases Nat.eq_zero_or_pos n with rfl | hn
  · exact .inl (by decide)
  · right
    have hlt : ∀ c ∈ Nat.toDigits 10 n, c.toNat < 0x80 := by
      intro c hc
      have hdigit := NumberText.isDigit_of_mem_toDigits c hc
      simp only [Char.isDigit, Bool.and_eq_true, decide_eq_true_eq, UInt32.le_iff_toNat_le] at hdigit
      exact Nat.lt_of_le_of_lt hdigit.2 (by decide)
    rw [Utf8.encode_ofList_of_lt hlt, List.head?_map]
    intro b hb
    obtain ⟨c, hc, rfl⟩ := Option.map_eq_some_iff.1 hb
    have hcode := hlt c (List.mem_of_mem_head? hc)
    intro hzero
    refine head?_toDigits hn c hc (Char.toNat_inj.1 ?_)
    have hnat := congrArg UInt8.toNat hzero
    rw [Nat.toUInt8_eq, UInt8.toNat_ofNat', Nat.mod_eq_of_lt (by omega)] at hnat
    exact hnat

/-- The parts of a double's text have the digits of a natural number in front of the point. -/
theorem exists_whole_eq (x : FiniteDouble) (i : Int) :
    ∃ n, (x.parts i).whole = Utf8.encode (.ofList (Nat.toDigits 10 n)) := by
  unfold FiniteDouble.parts
  repeat' split
  all_goals exact ⟨_, rfl⟩

theorem fraction_ne_nil_of_parts (x : FiniteDouble) (i : Int) :
    ∀ digits ∈ (x.parts i).fraction, digits ≠ [] := by
  have hdecimals (negative : Bool) (n : Nat) (e : Option NumberLiteral.ExponentPart) :
      ∀ digits ∈ (NumberText.decimalParts negative n e).fraction, digits ≠ [] := by
    intro digits hmem
    rw [← Option.some.inj hmem]
    exact Utf8.encode_ofList_ne_nil NumberText.padded_ne_nil
  have hwhole (negative : Bool) (n : Nat) :
      ∀ digits ∈ (NumberText.wholeParts negative n).fraction, digits ≠ [] :=
    fun _ h => nomatch h
  unfold FiniteDouble.parts
  split
  · exact hwhole _ _
  · split
    · exact hwhole _ _
    · split
      · exact hdecimals _ _ _
      · exact hdecimals _ _ _

theorem leading_of_parts (x : FiniteDouble) (i : Int) :
    (x.parts i).whole = [zero] ∨ ∀ b ∈ (x.parts i).whole.head?, b ≠ zero := by
  obtain ⟨n, hn⟩ := exists_whole_eq x i
  rw [hn]
  exact leading_toDigits n

/-- The number that the text of a finite double is. -/
def Number.ofFinite (x : FiniteDouble) (i : Int) : Number :=
  ⟨x.parts i, x.whole_parts_ne_nil i, leading_of_parts x i, fraction_ne_nil_of_parts x i⟩

/-! ## Blanks -/

/-- Spaces, tabs and line feeds. -/
def IsLayout (bytes : List UInt8) : Prop :=
  ∀ b ∈ bytes, b = 0x20 ∨ b = 0x09 ∨ b = lineFeed

theorem isLayout_nil : IsLayout [] :=
  fun _ h => absurd h List.not_mem_nil

theorem isLayout_append {xs ys : List UInt8} : IsLayout (xs ++ ys) ↔ IsLayout xs ∧ IsLayout ys :=
  List.forall_mem_append

def Blanks.ofLayout (bytes : List UInt8) (h : IsLayout bytes) : Blanks :=
  ⟨bytes, fun b hb => (h b hb).imp_right fun h => h.imp_right .inl⟩

theorem isLayout_space (pretty : Bool) : IsLayout (Grammar.Blanks.space pretty).bytes := by
  cases pretty
  · exact isLayout_nil
  · exact List.forall_mem_singleton.2 (.inl rfl)

theorem isLayout_tab (pretty : Bool) : IsLayout (Grammar.Blanks.tab pretty).bytes := by
  cases pretty
  · exact isLayout_nil
  · exact List.forall_mem_singleton.2 (.inr (.inl rfl))

theorem isLayout_lineEnd (pretty : Bool) : IsLayout (Grammar.Blanks.lineEnd pretty).bytes := by
  cases pretty
  · exact isLayout_nil
  · exact List.forall_mem_singleton.2 (.inr (.inr rfl))

theorem isLayout_indent (pretty : Bool) (depth : Nat) :
    IsLayout (Grammar.Blanks.indent pretty depth).bytes := by
  cases pretty
  · exact isLayout_nil
  · exact fun b hb => .inr (.inl (List.eq_of_mem_replicate hb))

/-! ## Trees -/

theorem exists_value_of_scalar {v : Scalar} (h : ∀ text, v ≠ .raw text) :
    ∃ d : Value, d.bytes = v.render ∧ d.blanks = [] := by
  cases v with
  | null => exact ⟨.null, rfl, rfl⟩
  | bool value =>
    refine ⟨.bool value, ?_, rfl⟩
    cases value <;> rfl
  | number n =>
    by_cases hvalue : ∃ x, n.value = .finite x
    · obtain ⟨x, hx⟩ := hvalue
      refine ⟨.number (.ofFinite x n.integer), ?_, rfl⟩
      rw [Scalar.render, Number.text_finite hx, x.encode_text]
      rfl
    · refine ⟨.null, ?_, rfl⟩
      rw [Scalar.render, Number.text_not_finite (not_exists.1 hvalue)]
      rfl
  | string s =>
    obtain ⟨items, hitems⟩ := exists_string s
    exact ⟨.string items, hitems, rfl⟩
  | raw text => exact absurd rfl (h text)

mutual

/-- The text of a tree without raw values is derived. -/
theorem exists_value (pretty : Bool) (depth : Nat) :
    ∀ t : JsonTree, (∀ text, .raw text ∉ t.scalars) →
      ∃ d : Value, d.bytes = t.render pretty depth ∧ IsLayout d.blanks
  | .scalar _ v, h => by
    have hraw : ∀ text, v ≠ .raw text :=
      fun text heq => h text (List.mem_singleton.2 heq.symm)
    obtain ⟨d, hbytes, hblanks⟩ := exists_value_of_scalar hraw
    exact ⟨d, hbytes, hblanks ▸ isLayout_nil⟩
  | .array _ [], _ => ⟨.emptyArray .none, rfl, isLayout_nil⟩
  | .array _ (t :: ts), h => by
    obtain ⟨items, hbytes, hblanks⟩ :=
      exists_items pretty (depth + 1) (t :: ts) (List.cons_ne_nil _ _) isLayout_nil h
    refine ⟨.array items, ?_, hblanks⟩
    rw [Value.bytes, hbytes]
    rfl
  | .object _ [], _ => ⟨.emptyObject .none, rfl, isLayout_nil⟩
  | .object _ (t :: ts), h => by
    obtain ⟨members, hbytes, hblanks⟩ := exists_members pretty (depth + 1) (t :: ts)
      (List.cons_ne_nil _ _) (isLayout_lineEnd pretty) (isLayout_indent pretty depth) h
    refine ⟨.object members, ?_, hblanks⟩
    rw [Value.bytes, hbytes, JsonTree.render, Grammar.objectStart_eq, Grammar.objectEnd_eq]
    simp only [List.cons_append, List.append_assoc]
  | .reference _ target, h => exists_value pretty depth target h

/-- Blanks may stand in front of the first item, where the separator before it leaves them. -/
theorem exists_items (pretty : Bool) (depth : Nat) :
    ∀ ts : List JsonTree, ts ≠ [] → ∀ {before : List UInt8}, IsLayout before →
      (∀ text, .raw text ∉ JsonTree.scalarsOf ts) →
      ∃ d : Items, d.bytes = before ++ JsonTree.renderItems pretty depth ts ∧ IsLayout d.blanks
  | [], hne, _, _, _ => absurd rfl hne
  | [t], _, before, hbefore, h => by
    obtain ⟨item, hbytes, hblanks⟩ := exists_value pretty depth t fun text hmem =>
      h text (List.mem_append_left _ hmem)
    refine ⟨.last (.ofLayout before hbefore) item .none, ?_, ?_⟩
    · simp [Items.bytes, hbytes, Blanks.none, Blanks.ofLayout, JsonTree.renderItems]
    · exact isLayout_append.2 ⟨hbefore, isLayout_append.2 ⟨hblanks, isLayout_nil⟩⟩
  | t :: u :: us, _, before, hbefore, h => by
    obtain ⟨item, hbytes, hblanks⟩ := exists_value pretty depth t fun text hmem =>
      h text (List.mem_append_left _ hmem)
    obtain ⟨rest, hrest, hrestBlanks⟩ := exists_items pretty depth (u :: us) (List.cons_ne_nil _ _)
      (isLayout_space pretty) fun text hmem => h text (List.mem_append_right _ hmem)
    refine ⟨.more (.ofLayout before hbefore) item .none rest, ?_, ?_⟩
    · rw [Items.bytes, hbytes, JsonTree.renderItems, Grammar.itemSeparator_eq, hrest]
      simp [Blanks.none, Blanks.ofLayout]
    · exact isLayout_append.2 ⟨hbefore, isLayout_append.2 ⟨hblanks,
        isLayout_append.2 ⟨isLayout_nil, hrestBlanks⟩⟩⟩

/-- Blanks may stand in front of the first member and behind the last. -/
theorem exists_members (pretty : Bool) (depth : Nat) :
    ∀ ts : List JsonTree, ts ≠ [] → ∀ {before after : List UInt8}, IsLayout before →
      IsLayout after → (∀ text, .raw text ∉ JsonTree.scalarsOf ts) →
      ∃ d : Members, d.bytes = before ++ (JsonTree.renderMembers pretty depth ts ++ after) ∧
        IsLayout d.blanks
  | [], hne, _, _, _, _, _ => absurd rfl hne
  | [t], _, before, after, hbefore, hafter, h => by
    obtain ⟨name, hname⟩ := exists_string (t.label.key.getD "")
    obtain ⟨value, hbytes, hblanks⟩ := exists_value pretty depth t fun text hmem =>
      h text (List.mem_append_left _ hmem)
    have hindent := isLayout_append.2 ⟨hbefore, isLayout_indent pretty depth⟩
    have hend := isLayout_append.2 ⟨isLayout_lineEnd pretty, hafter⟩
    refine ⟨.last (.ofLayout _ hindent) name .none (.ofLayout _ (isLayout_tab pretty)) value
      (.ofLayout _ hend), ?_, ?_⟩
    · rw [Members.bytes, hbytes, hname, JsonTree.renderMembers, Grammar.nameSeparator_eq,
        Grammar.memberEnd_eq]
      simp [Blanks.none, Blanks.ofLayout, Grammar.Blanks.indent, JsonTree.renderMembers]
    · exact isLayout_append.2 ⟨hindent, isLayout_append.2 ⟨isLayout_nil,
        isLayout_append.2 ⟨isLayout_tab pretty, isLayout_append.2 ⟨hblanks, hend⟩⟩⟩⟩
  | t :: u :: us, _, before, after, hbefore, hafter, h => by
    obtain ⟨name, hname⟩ := exists_string (t.label.key.getD "")
    obtain ⟨value, hbytes, hblanks⟩ := exists_value pretty depth t fun text hmem =>
      h text (List.mem_append_left _ hmem)
    obtain ⟨rest, hrest, hrestBlanks⟩ := exists_members pretty depth (u :: us)
      (List.cons_ne_nil _ _) (isLayout_lineEnd pretty) hafter fun text hmem =>
        h text (List.mem_append_right _ hmem)
    have hindent := isLayout_append.2 ⟨hbefore, isLayout_indent pretty depth⟩
    -- the line feed behind the comma is the first blank of the next member
    refine ⟨.more (.ofLayout _ hindent) name .none (.ofLayout _ (isLayout_tab pretty)) value .none
      rest, ?_, ?_⟩
    · rw [Members.bytes, hbytes, hname, JsonTree.renderMembers, Grammar.nameSeparator_eq,
        Grammar.memberEnd_eq, hrest]
      simp [Blanks.none, Blanks.ofLayout, Grammar.Blanks.indent]
    · exact isLayout_append.2 ⟨hindent, isLayout_append.2 ⟨isLayout_nil,
        isLayout_append.2 ⟨isLayout_tab pretty, isLayout_append.2 ⟨hblanks,
        isLayout_append.2 ⟨isLayout_nil, hrestBlanks⟩⟩⟩⟩⟩

end

end LinkedJson.Strict

namespace LinkedJson.JsonTree

theorem zero_not_mem_render_of_not_raw {t : JsonTree} (ht : ∀ text, .raw text ∉ t.scalars)
    (pretty : Bool) (depth : Nat) : 0 ∉ t.render pretty depth := by
  refine zero_not_mem_render pretty depth t fun v hv => ?_
  cases v with
  | raw text => exact absurd hv (ht text)
  | number n => exact n.zero_not_mem_text
  | string s => exact StringLiteral.zero_not_mem_quoted s.encode
  | null => decide
  | bool value => cases value <;> decide

/-- **Whatever is printed is strict.** If a tree that reaches no raw value is printed, in either
layout, then its text is derived by the strict grammar, with spaces, tabs and line feeds as the only
blanks; and it holds no zero byte. -/
theorem print_strict {options : WriteOptions} {budget : ByteBudget} {t : JsonTree} {s : String}
    (ht : ∀ text, .raw text ∉ t.scalars) (hprint : (t.print options budget).1 = .ok s) :
    (∃ d : Strict.Text, d.bytes = Utf8.encode s ∧
      ∀ b ∈ d.blanks, b = 0x20 ∨ b = 0x09 ∨ b = Ascii.lineFeed) ∧
    0 ∉ Utf8.encode s := by
  rw [(of_print hprint).1]
  refine ⟨?_, zero_not_mem_render_of_not_raw ht options.pretty 0⟩
  obtain ⟨d, hbytes, hblanks⟩ := Strict.exists_value options.pretty 0 t ht
  refine ⟨⟨.none, d, .none⟩, ?_, ?_⟩
  · rw [Strict.Text.bytes, hbytes]
    exact List.append_nil _
  · rw [Strict.Text.blanks]
    exact Strict.isLayout_append.2 ⟨Strict.isLayout_nil,
      Strict.isLayout_append.2 ⟨hblanks, Strict.isLayout_nil⟩⟩

/-- A name with the character 0, an infinite number and a member without a name, in the pretty
layout. -/
theorem print_strict_control_character :
    (∃ d : Strict.Text,
      d.bytes = Utf8.encode "\x7b\n\t\"\\u0000\\n\":\tnull,\n\t\"\":\t[true, \"/\"]\n\x7d" ∧
      ∀ b ∈ d.blanks, b = 0x20 ∨ b = 0x09 ∨ b = Ascii.lineFeed) ∧
    0 ∉ Utf8.encode "\x7b\n\t\"\\u0000\\n\":\tnull,\n\t\"\":\t[true, \"/\"]\n\x7d" := by
  have hprint : (print ⟨true, 0, 2⟩ .unlimited (.object .none
      [.scalar (.owned "\x00\n") (.number ⟨.infinite true, 7⟩),
        .array .none [.scalar .none (.bool true), .scalar .none (.string "/")]])).1 =
      .ok "\x7b\n\t\"\\u0000\\n\":\tnull,\n\t\"\":\t[true, \"/\"]\n\x7d" :=
    eq_ok_of_toOption (by decide +kernel)
  exact print_strict (fun text => by simp [scalars, scalarsOf]) hprint

end LinkedJson.JsonTree
