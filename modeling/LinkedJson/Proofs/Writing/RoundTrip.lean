import LinkedJson.Proofs.Grammar.Acceptance
import LinkedJson.Proofs.Writing.LayoutBlanks
import LinkedJson.Proofs.Writing.Printing

/-!
# Printed trees are read back

The text of a tree is derived by the grammar: its blanks are those of the layout, and its tokens are
the literals of the tree. The derivation denotes the normal form of the tree, in which references,
names and numbers are what their texts say. So whatever is printed is read to its end, within the
same limit, as the normal form (`JsonTree.read_print`).
-/

namespace LinkedJson

/-! ## Normal forms -/

/-- The value that the text of a number is read as. What is not finite is written as null. -/
def Number.reread (n : Number) : Scalar :=
  match n.value with
  | .finite _ =>
    match NumberLiteral.read (Utf8.encode n.text) with
    | .ok (d, _) => .number (.ofDouble d)
    | .error _ => .null
  | _ => .null

/-- The text of a finite number is read to its end, so the normal form is that reading. -/
theorem Number.reread_finite {n : Number} {x : FiniteDouble} (h : n.value = .finite x) :
    NumberLiteral.read (Utf8.encode n.text) = .ok ((x.parts n.integer).decimal.toDouble, []) ∧
      n.reread = .number (.ofDouble (x.parts n.integer).decimal.toDouble) := by
  have hread : NumberLiteral.read (Utf8.encode n.text) =
      .ok ((x.parts n.integer).decimal.toDouble, []) := by
    rw [text_finite h]
    exact x.read_text n.integer
  refine ⟨hread, ?_⟩
  simp only [reread, h, hread]

theorem Number.reread_not_finite {n : Number} (h : ∀ x, n.value ≠ .finite x) :
    n.reread = .null := by
  unfold reread
  split
  · rename_i x hx
    exact absurd hx (h x)
  · rfl

/-- The value that the text of a value is read as. Lone surrogates are replaced. -/
def Scalar.normal : Scalar → Scalar
  | number n => n.reread
  | string s => .string s.wellFormed
  | v => v

/-- The code unit 0 does not occur, and nothing is raw. -/
def Scalar.Readable : Scalar → Prop
  | string s => 0 ∉ s.units
  | raw _ => False
  | _ => True

namespace JsonTree

mutual

/-- The tree that the text of a tree stands for, under a label: a reference is its target's value,
and items have no name. -/
def normal (l : Label) : JsonTree → JsonTree
  | scalar _ v => scalar l v.normal
  | array _ items => array l (normalItems items)
  | object _ members => object l (normalMembers members)
  | reference _ target => target.normal l

def normalItems : List JsonTree → List JsonTree
  | [] => []
  | t :: ts => t.normal .none :: normalItems ts

/-- A member without a name has the empty name, lone surrogates of names are replaced, and all names
are owned. -/
def normalMembers : List JsonTree → List JsonTree
  | [] => []
  | t :: ts => t.normal (.owned (t.label.key.getD "").wellFormed) :: normalMembers ts

end

/-- The tree reaches no raw value, and what it writes inside of quotes does not hold the
code unit 0. -/
structure Readable (t : JsonTree) : Prop where
  scalars : ∀ v ∈ t.scalars, v.Readable
  names : ∀ s ∈ t.names, 0 ∉ s.units

theorem withLabel_normal (l l' : Label) (t : JsonTree) :
    (t.normal l').withLabel l = t.normal l := by
  cases t with
  | reference _ target => exact withLabel_normal l l' target
  | _ => rfl

end JsonTree

namespace Grammar

open Ascii

/-! ## Tokens of a tree -/

def StringToken.ofString (s : WideString) (h : 0 ∉ s.units) : StringToken :=
  ⟨StringLiteral.literal s, s.wellFormed, StringLiteral.read_literal h⟩

def NumberToken.ofFinite (x : FiniteDouble) (i : Int) : NumberToken :=
  ⟨Utf8.encode (.ofList (x.text i)), _, x.read_text i, x.head?_text i⟩

theorem exists_value_of_scalar {v : Scalar} (h : v.Readable) :
    ∃ d : Value, d.bytes = v.render ∧ d.tree = .scalar .none v.normal ∧ d.nesting = 0 := by
  cases v with
  | null => exact ⟨.null, rfl, rfl, rfl⟩
  | bool value =>
    refine ⟨.bool value, ?_, rfl, rfl⟩
    cases value <;> rfl
  | number n =>
    by_cases hvalue : ∃ x, n.value = .finite x
    · obtain ⟨x, hx⟩ := hvalue
      refine ⟨.number (.ofFinite x n.integer), ?_, ?_, rfl⟩
      · rw [Scalar.render, Number.text_finite hx]
        rfl
      · rw [Scalar.normal, (Number.reread_finite hx).2]
        rfl
    · refine ⟨.null, ?_, ?_, rfl⟩
      · rw [Scalar.render, Number.text_not_finite (not_exists.1 hvalue)]
        rfl
      · rw [Scalar.normal, Number.reread_not_finite (not_exists.1 hvalue)]
        rfl
  | string s => exact ⟨.string (.ofString s h), rfl, rfl, rfl⟩
  | raw text => exact h.elim

/-! ## The derivation of a text -/

mutual

/-- The text of a tree is derived as a value that denotes its normal form. -/
theorem exists_value (pretty : Bool) (depth : Nat) :
    ∀ t : JsonTree, (∀ v ∈ t.scalars, v.Readable) → (∀ s ∈ t.names, 0 ∉ s.units) →
      ∃ d : Value, d.bytes = t.render pretty depth ∧ d.tree = t.normal .none ∧
        d.nesting = t.nesting
  | .scalar _ v, hscalars, _ => exists_value_of_scalar (hscalars v (List.mem_singleton_self v))
  | .array _ [], _, _ => ⟨.emptyArray .none, rfl, rfl, rfl⟩
  | .array _ (t :: ts), hscalars, hnames => by
    obtain ⟨items, hbytes, htrees, hnesting⟩ :=
      exists_items pretty (depth + 1) (t :: ts) (List.cons_ne_nil _ _) .none hscalars hnames
    refine ⟨.array items, ?_, ?_, ?_⟩
    · rw [Value.bytes, hbytes]
      rfl
    · rw [Value.tree, htrees, JsonTree.normal]
    · rw [Value.nesting, hnesting, JsonTree.nesting]
  | .object _ [], _, _ => ⟨.emptyObject .none, rfl, rfl, rfl⟩
  | .object _ (t :: ts), hscalars, hnames => by
    obtain ⟨members, hbytes, htrees, hnesting⟩ := exists_members pretty (depth + 1) (t :: ts)
      (List.cons_ne_nil _ _) (.lineEnd pretty) (.indent pretty depth) hscalars hnames
    refine ⟨.object members, ?_, ?_, ?_⟩
    · rw [Value.bytes, hbytes, JsonTree.render, objectStart_eq, objectEnd_eq]
      simp only [List.cons_append, List.append_assoc]
    · rw [Value.tree, htrees, JsonTree.normal]
    · rw [Value.nesting, hnesting, JsonTree.nesting]
  | .reference _ target, hscalars, hnames => exists_value pretty depth target hscalars hnames

/-- Blanks may stand in front of the first item, where the separator before it leaves them. -/
theorem exists_items (pretty : Bool) (depth : Nat) :
    ∀ ts : List JsonTree, ts ≠ [] → ∀ before : Blanks,
      (∀ v ∈ JsonTree.scalarsOf ts, v.Readable) →
      (∀ s ∈ JsonTree.itemNames ts, 0 ∉ s.units) →
      ∃ d : Items, d.bytes = before.bytes ++ JsonTree.renderItems pretty depth ts ∧
        d.trees = JsonTree.normalItems ts ∧ d.nesting = JsonTree.nestings ts
  | [], hne, _, _, _ => absurd rfl hne
  | [t], _, before, hscalars, hnames => by
    obtain ⟨item, hbytes, htree, hnesting⟩ := exists_value pretty depth t
      (List.forall_mem_append.1 hscalars).1 (List.forall_mem_append.1 hnames).1
    refine ⟨.last before item .none, ?_, ?_, ?_⟩
    · simp [Items.bytes, hbytes, Blanks.none, JsonTree.renderItems]
    · rw [Items.trees, htree]
      rfl
    · rw [Items.nesting, hnesting, JsonTree.nestings, JsonTree.nestings, Nat.max_zero]
  | t :: u :: us, _, before, hscalars, hnames => by
    obtain ⟨hscalar, hscalars⟩ := List.forall_mem_append.1 hscalars
    obtain ⟨hname, hnames⟩ := List.forall_mem_append.1 hnames
    obtain ⟨item, hbytes, htree, hnesting⟩ := exists_value pretty depth t hscalar hname
    obtain ⟨rest, hrest, htrees, hnestings⟩ :=
      exists_items pretty depth (u :: us) (List.cons_ne_nil _ _) (.space pretty) hscalars hnames
    refine ⟨.more before item .none rest, ?_, ?_, ?_⟩
    · rw [Items.bytes, hbytes, JsonTree.renderItems, itemSeparator_eq, hrest]
      simp [Blanks.none]
    · rw [Items.trees, htree, htrees]
      rfl
    · rw [Items.nesting, hnesting, hnestings]
      rfl

/-- Blanks may stand in front of the first member and behind the last. -/
theorem exists_members (pretty : Bool) (depth : Nat) :
    ∀ ts : List JsonTree, ts ≠ [] → ∀ before after : Blanks,
      (∀ v ∈ JsonTree.scalarsOf ts, v.Readable) →
      (∀ s ∈ JsonTree.memberNames ts, 0 ∉ s.units) →
      ∃ d : Members,
        d.bytes = before.bytes ++ (JsonTree.renderMembers pretty depth ts ++ after.bytes) ∧
        d.trees = JsonTree.normalMembers ts ∧ d.nesting = JsonTree.nestings ts
  | [], hne, _, _, _, _ => absurd rfl hne
  | [t], _, before, after, hscalars, hnames => by
    obtain ⟨hkey, hnames⟩ := List.forall_mem_cons.1 hnames
    obtain ⟨value, hbytes, htree, hnesting⟩ := exists_value pretty depth t
      (List.forall_mem_append.1 hscalars).1 (List.forall_mem_append.1 hnames).1
    refine ⟨.last (before.append (.indent pretty depth)) (.ofString _ hkey) .none (.tab pretty)
      value ((Blanks.lineEnd pretty).append after), ?_, ?_, ?_⟩
    · rw [Members.bytes, hbytes, JsonTree.renderMembers, nameSeparator_eq, memberEnd_eq]
      simp [Blanks.none, Blanks.append, Blanks.indent, StringToken.ofString, JsonTree.renderMembers]
    · rw [Members.trees, htree, JsonTree.withLabel_normal]
      rfl
    · rw [Members.nesting, hnesting, JsonTree.nestings, JsonTree.nestings, Nat.max_zero]
  | t :: u :: us, _, before, after, hscalars, hnames => by
    obtain ⟨hscalar, hscalars⟩ := List.forall_mem_append.1 hscalars
    obtain ⟨hkey, hnames⟩ := List.forall_mem_cons.1 hnames
    obtain ⟨hname, hnames⟩ := List.forall_mem_append.1 hnames
    obtain ⟨value, hbytes, htree, hnesting⟩ := exists_value pretty depth t hscalar hname
    obtain ⟨rest, hrest, htrees, hnestings⟩ := exists_members pretty depth (u :: us)
      (List.cons_ne_nil _ _) (.lineEnd pretty) after hscalars hnames
    -- the line feed behind the comma is the first blank of the next member
    refine ⟨.more (before.append (.indent pretty depth)) (.ofString _ hkey) .none (.tab pretty)
      value .none rest, ?_, ?_, ?_⟩
    · rw [Members.bytes, hbytes, JsonTree.renderMembers, nameSeparator_eq, memberEnd_eq, hrest]
      simp [Blanks.none, Blanks.append, Blanks.indent, StringToken.ofString]
    · rw [Members.trees, htree, htrees, JsonTree.withLabel_normal]
      rfl
    · rw [Members.nesting, hnesting, hnestings]
      rfl

end

end Grammar

namespace JsonTree

open Grammar

theorem Readable.zero_not_mem_render {t : JsonTree} (h : t.Readable) (pretty : Bool)
    (depth : Nat) : 0 ∉ t.render pretty depth := by
  refine JsonTree.zero_not_mem_render pretty depth t fun v hv => ?_
  have hreadable := h.scalars v hv
  cases v with
  | null => decide
  | bool value => cases value <;> decide
  | number n => exact n.zero_not_mem_text
  | string s => exact StringLiteral.zero_not_mem_quoted s.encode
  | raw text => exact hreadable.elim

/-- The text of a readable tree is read as a whole, as the normal form of the tree. -/
theorem Readable.read_render {maxDepth : Int} {t : JsonTree} (ht : t.Readable)
    (hdepth : t.nesting ≤ maxDepth.toNat) (pretty : Bool) :
    Document.read ⟨true, maxDepth, none⟩ none (t.render pretty 0) =
      .ok ⟨t.normal .none, (t.render pretty 0).length⟩ := by
  obtain ⟨d, hrender, htree, hnesting⟩ := exists_value pretty 0 t ht.scalars ht.names
  have hcontent : content (t.render pretty 0) = t.render pretty 0 :=
    content_eq_self (ht.zero_not_mem_render pretty 0)
  have hne : t.render pretty 0 ≠ [] := by
    obtain ⟨b, text, hcons, -⟩ := d.exists_cons
    rw [← hrender, hcons]
    exact List.cons_ne_nil _ _
  have htext : (Text.mk .none d .none).bytes = content (t.render pretty 0) := by
    rw [hcontent, ← hrender, Text.bytes, Blanks.none, List.nil_append, List.append_nil]
  have hread : Document.read ⟨true, maxDepth, none⟩ none (t.render pretty 0) = _ :=
    Document.read_of_text rfl hne rfl ⟨.none, d, .none⟩ htext (hnesting ▸ hdepth)
  rwa [hcontent, htree] at hread

/-- **Reading undoes printing.** If a tree without raw values and without the code unit 0 is
printed, in either layout and from any first size of the buffer, then its text is read as a whole,
within the same limit of nesting and to its last byte, as the normal form of the tree. -/
theorem read_print {options : WriteOptions} {budget : ByteBudget} {t : JsonTree} {s : String}
    (ht : t.Readable) (hprint : (t.print options budget).1 = .ok s) :
    Document.read ⟨true, options.maxDepth, none⟩ none (Utf8.encode s) =
      .ok ⟨t.normal .none, (Utf8.encode s).length⟩ := by
  obtain ⟨hbytes, hdepth⟩ := of_print hprint
  rw [hbytes]
  exact ht.read_render hdepth options.pretty

/-- A reference, a string that needs an escape, and numbers of which one is not finite. -/
def mixed : JsonTree :=
  .object .none [.reference (.owned "a") (.array (.borrowed "b") [.scalar .none (.string "\n"),
    .scalar .none (.number ⟨.finite ⟨false, Nat.pow 2 52, -52, by decide⟩, 1⟩),
    .scalar .none (.number ⟨.nan, 7⟩)])]

/-- The tree comes back from the compact layout and a buffer that has to grow. -/
theorem read_print_mixed :
    Document.read ⟨true, 2, none⟩ none (Utf8.encode "\x7b\"a\":[\"\\n\",1,null]\x7d") =
      .ok ⟨.object .none [.array (.owned "a") [.scalar .none (.string "\n"),
        .scalar .none (.number (.ofDouble (.finite ⟨false, Nat.pow 2 52, -52, by decide⟩))),
        .scalar .none .null]], 19⟩ := by
  have hreadable : mixed.Readable := by
    refine ⟨?_, ?_⟩
    · simp [mixed, scalars, scalarsOf, Scalar.Readable]
    · simp [mixed, names, itemNames, memberNames, label, Label.owned]
  have hprint : (mixed.print ⟨false, 0, 2⟩ .unlimited).1 =
      .ok "\x7b\"a\":[\"\\n\",1,null]\x7d" :=
    eq_ok_of_toOption (by decide +kernel)
  have hnumber : Number.reread ⟨.finite ⟨false, Nat.pow 2 52, -52, by decide⟩, 1⟩ =
      .number (.ofDouble (.finite ⟨false, Nat.pow 2 52, -52, by decide⟩)) := by
    decide +kernel
  rw [read_print hreadable hprint, mixed]
  simp only [normal, normalMembers, normalItems, Scalar.normal, hnumber]
  rfl

/-- A name and a string with surrogates that stand alone. There is no reference, number or missing
name in the tree, so but for the surrogates it is a normal form. -/
def unpaired : JsonTree :=
  .object .none [.scalar (.owned ⟨[0x61, 0xd800]⟩) (.string ⟨[0xdc00]⟩)]

/-- **Lone surrogates do not come back.** They are printed as U+FFFD, which is read as another name
and another string. -/
theorem read_print_unpaired :
    unpaired.Readable ∧
      (unpaired.print ⟨false, 256, 2⟩ .unlimited).1 = .ok "\x7b\"a\ufffd\":\"\ufffd\"\x7d" ∧
      Document.read ⟨true, 2, none⟩ none (Utf8.encode "\x7b\"a\ufffd\":\"\ufffd\"\x7d") =
        .ok ⟨.object .none [.scalar (.owned "a\ufffd") (.string "\ufffd")], 14⟩ ∧
      ∀ stop, Document.read ⟨true, 2, none⟩ none (Utf8.encode "\x7b\"a\ufffd\":\"\ufffd\"\x7d") ≠
        .ok ⟨unpaired, stop⟩ := by
  have hreadable : unpaired.Readable := by
    refine ⟨?_, ?_⟩
    · simp [unpaired, scalars, scalarsOf, Scalar.Readable]
    · simp [unpaired, names, memberNames, label, Label.owned]
  have hprint : (unpaired.print ⟨false, 256, 2⟩ .unlimited).1 =
      .ok "\x7b\"a\ufffd\":\"\ufffd\"\x7d" :=
    eq_ok_of_toOption (by decide +kernel)
  have hread : Document.read ⟨true, 2, none⟩ none
      (Utf8.encode "\x7b\"a\ufffd\":\"\ufffd\"\x7d") =
        .ok ⟨.object .none [.scalar (.owned "a\ufffd") (.string "\ufffd")], 14⟩ := by
    rw [(of_print hprint).1]
    exact hreadable.read_render (by decide) false
  refine ⟨hreadable, hprint, hread, fun stop h => ?_⟩
  rw [hread, unpaired] at h
  have hstring : WideString.ofString "\ufffd" ≠ ⟨[0xdc00]⟩ := by decide
  simp [hstring] at h

end JsonTree

end LinkedJson
