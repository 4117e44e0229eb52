import LinkedJson.Proofs.Literal.StringReading
import LinkedJson.Proofs.Writing.RoundTrip

/-!
# Trees that are read

What a document can hold once it is read: strings and names without the character 0, nothing raw,
no references, and numbers that have no other integer beside them than their own
(`JsonTree.AsRead`). A tree that is read has a derivation within the text
(`Document.exists_value_of_read`), so what is said of trees here is proved of derivations.
-/

namespace LinkedJson

/-- A value without parts as a reader builds it. -/
def Scalar.Read : Scalar → Prop
  | .number n => ∃ d, n = .ofDouble d
  | v => v.Readable

theorem Scalar.Read.readable {v : Scalar} (h : v.Read) : v.Readable := by
  cases v with
  | number n => trivial
  | _ => exact h

/-- What a token stands for: a string is one of characters, without the character 0, a number is one
and has the integer of its double beside it, and nothing is raw. -/
def Scalar.OfToken : Scalar → Prop
  | .null | .bool _ => True
  | .number n => n.value ≠ .nan ∧ n.integer = n.value.toInt32
  | .string s => ∃ text : String, s = text ∧ '\x00' ∉ text.toList
  | .raw _ => False

theorem Scalar.OfToken.read {v : Scalar} (h : v.OfToken) : v.Read := by
  cases v with
  | number n => exact ⟨n.value, congrArg (Number.mk n.value) h.2⟩
  | string s =>
    obtain ⟨text, rfl, hzero⟩ := h
    exact mt WideString.zero_mem_units_ofString.1 hzero
  | _ => exact h

/-! ## Trees of tokens -/

namespace JsonTree

theorem nesting_withLabel (l : Label) (t : JsonTree) : (t.withLabel l).nesting = t.nesting := by
  cases t <;> rfl

/-- A tree of what tokens stand for. Items have no names, each member owns a name without the
character 0, and there are no references. -/
inductive AsRead : JsonTree → Prop
  | scalar (l : Label) {v : Scalar} : v.OfToken → AsRead (.scalar l v)
  | array (l : Label) {items : List JsonTree} :
    (∀ t ∈ items, t.label = .none) → (∀ t ∈ items, t.AsRead) → AsRead (.array l items)
  | object (l : Label) {members : List JsonTree} :
    (∀ t ∈ members, ∃ key : String, t.label = .owned key ∧ '\x00' ∉ key.toList) →
      (∀ t ∈ members, t.AsRead) → AsRead (.object l members)

namespace AsRead

variable {t : JsonTree}

/-- The label of the root does not count. -/
theorem withLabel (h : t.AsRead) (l : Label) : (t.withLabel l).AsRead := by
  cases h with
  | scalar _ hv => exact .scalar l hv
  | array _ hlabels hitems => exact .array l hlabels hitems
  | object _ hlabels hmembers => exact .object l hlabels hmembers

theorem ofToken_scalars (h : t.AsRead) : ∀ v ∈ t.scalars, v.OfToken := by
  have hall : ∀ ts : List JsonTree, (∀ t ∈ ts, ∀ v ∈ t.scalars, v.OfToken) →
      ∀ v ∈ scalarsOf ts, v.OfToken := by
    intro ts hts
    induction ts with
    | nil => exact fun _ hv => nomatch hv
    | cons t ts ih =>
      obtain ⟨ht, hts⟩ := List.forall_mem_cons.1 hts
      exact List.forall_mem_append.2 ⟨ht, ih hts⟩
  induction h with
  | scalar _ hv => exact List.forall_mem_singleton.2 hv
  | array _ _ _ ih => exact hall _ ih
  | object _ _ _ ih => exact hall _ ih

theorem zero_not_mem_names (h : t.AsRead) : ∀ s ∈ t.names, 0 ∉ s.units := by
  have hitems : ∀ ts : List JsonTree, (∀ t ∈ ts, ∀ s ∈ t.names, 0 ∉ s.units) →
      ∀ s ∈ itemNames ts, 0 ∉ s.units := by
    intro ts hts
    induction ts with
    | nil => exact List.forall_mem_nil _
    | cons t ts ih =>
      obtain ⟨ht, hts⟩ := List.forall_mem_cons.1 hts
      exact List.forall_mem_append.2 ⟨ht, ih hts⟩
  have hmembers : ∀ ts : List JsonTree,
      (∀ t ∈ ts, ∃ key : String, t.label = .owned key ∧ '\x00' ∉ key.toList) →
      (∀ t ∈ ts, ∀ s ∈ t.names, 0 ∉ s.units) → ∀ s ∈ memberNames ts, 0 ∉ s.units := by
    intro ts hlabels hts
    induction ts with
    | nil => exact List.forall_mem_nil _
    | cons t ts ih =>
      obtain ⟨⟨key, hkey, hzero⟩, hlabels⟩ := List.forall_mem_cons.1 hlabels
      obtain ⟨ht, hts⟩ := List.forall_mem_cons.1 hts
      rw [memberNames, hkey]
      have hname := mt WideString.zero_mem_units_ofString.1 hzero
      exact List.forall_mem_cons.2 ⟨hname, List.forall_mem_append.2 ⟨ht, ih hlabels hts⟩⟩
  induction h with
  | scalar => exact List.forall_mem_nil _
  | array _ _ _ ih => exact hitems _ ih
  | object _ hlabels _ ih => exact hmembers _ hlabels ih

theorem readable (h : t.AsRead) : t.Readable :=
  ⟨fun v hv => (h.ofToken_scalars v hv).read.readable, h.zero_not_mem_names⟩

end AsRead

end JsonTree

/-! ## Numbers of tokens -/

theorem Double.ofRatio_ne_nan (negative : Bool) (num den : Nat) :
    Double.ofRatio negative num den ≠ .nan := by
  unfold Double.ofRatio
  dsimp only
  split
  · intro h
    cases h
  · intro h
    cases h

theorem Decimal.toDouble_ne_nan (d : Decimal) : d.toDouble ≠ .nan := by
  unfold Decimal.toDouble
  dsimp only
  split
  · exact fun h => nomatch h
  · split
    · exact fun h => nomatch h
    · exact Double.ofRatio_ne_nan _ _ _

namespace Grammar

open Ascii

theorem NumberToken.value_ne_nan (token : NumberToken) : token.value ≠ .nan := by
  have hread := token.read_literal
  unfold NumberLiteral.read at hread
  split at hread
  · cases hread
  · rename_i d rest _
    have hvalue : d.toDouble = token.value := congrArg Prod.fst (Except.ok.inj hread)
    rw [← hvalue]
    exact d.toDouble_ne_nan

/-! ## Trees of derivations -/

theorem Value.label_tree (v : Value) : v.tree.label = .none := by
  cases v <;> simp only [Value.tree, JsonTree.label]

mutual

/-- A text without a zero byte denotes a tree of tokens. -/
theorem Value.asRead_tree : ∀ v : Value, 0 ∉ v.bytes → v.tree.AsRead
  | .null, _ | .bool _, _ => .scalar _ trivial
  | .string token, hzero =>
    .scalar _ ⟨token.value, rfl, (StringLiteral.read_bounds token.read_literal).2 hzero⟩
  | .number token, _ => .scalar _ ⟨token.value_ne_nan, rfl⟩
  | .emptyArray _, _ => .array _ (fun _ ht => nomatch ht) fun _ ht => nomatch ht
  | .array items, hzero => by
    rw [Value.bytes, List.mem_cons, List.mem_append, not_or, not_or] at hzero
    have hitems := items.asRead_trees hzero.2.1
    exact .array _ (fun t ht => (hitems t ht).1) fun t ht => (hitems t ht).2
  | .emptyObject _, _ => .object _ (fun _ ht => nomatch ht) fun _ ht => nomatch ht
  | .object members, hzero => by
    rw [Value.bytes, List.mem_cons, List.mem_append, not_or, not_or] at hzero
    have hmembers := members.asRead_trees hzero.2.1
    exact .object _ (fun t ht => (hmembers t ht).1) fun t ht => (hmembers t ht).2

theorem Items.asRead_trees : ∀ items : Items, 0 ∉ items.bytes →
    ∀ t ∈ items.trees, t.label = .none ∧ t.AsRead
  | .last before value after, hzero => by
    simp only [Items.bytes, List.mem_append, not_or] at hzero
    exact List.forall_mem_singleton.2 ⟨value.label_tree, value.asRead_tree hzero.2.1⟩
  | .more before value after rest, hzero => by
    simp only [Items.bytes, List.mem_append, List.mem_cons, not_or] at hzero
    exact List.forall_mem_cons.2 ⟨⟨value.label_tree, value.asRead_tree hzero.2.1⟩,
      rest.asRead_trees hzero.2.2.2.2⟩

theorem Members.asRead_trees : ∀ members : Members, 0 ∉ members.bytes →
    ∀ t ∈ members.trees, (∃ key : String, t.label = .owned key ∧ '\x00' ∉ key.toList) ∧ t.AsRead
  | .last before name beforeColon afterColon value after, hzero => by
    simp only [Members.bytes, List.mem_append, List.mem_cons, not_or] at hzero
    have hname := (StringLiteral.read_bounds name.read_literal).2 hzero.2.1
    exact List.forall_mem_singleton.2 ⟨⟨name.value, JsonTree.label_withLabel .., hname⟩,
      (value.asRead_tree hzero.2.2.2.2.2.1).withLabel _⟩
  | .more before name beforeColon afterColon value after rest, hzero => by
    simp only [Members.bytes, List.mem_append, List.mem_cons, not_or] at hzero
    have hname := (StringLiteral.read_bounds name.read_literal).2 hzero.2.1
    exact List.forall_mem_cons.2 ⟨⟨⟨name.value, JsonTree.label_withLabel .., hname⟩,
      (value.asRead_tree hzero.2.2.2.2.2.1).withLabel _⟩, rest.asRead_trees hzero.2.2.2.2.2.2.2.2⟩

end

mutual

theorem Value.nesting_tree : ∀ v : Value, v.tree.nesting = v.nesting
  | .null | .bool _ | .string _ | .number _ => rfl
  | .emptyArray _ | .emptyObject _ => rfl
  | .array items => by rw [Value.tree, JsonTree.nesting, items.nestings_trees, Value.nesting]
  | .object members => by rw [Value.tree, JsonTree.nesting, members.nestings_trees, Value.nesting]

theorem Items.nestings_trees : ∀ items : Items, JsonTree.nestings items.trees = items.nesting
  | .last before value after => by
    rw [Items.trees, JsonTree.nestings, JsonTree.nestings, Nat.max_zero, value.nesting_tree]
    rfl
  | .more before value after rest => by
    rw [Items.trees, JsonTree.nestings, value.nesting_tree, rest.nestings_trees, Items.nesting]

theorem Members.nestings_trees :
    ∀ members : Members, JsonTree.nestings members.trees = members.nesting
  | .last before name beforeColon afterColon value after => by
    rw [Members.trees, JsonTree.nestings, JsonTree.nestings, Nat.max_zero,
      JsonTree.nesting_withLabel, value.nesting_tree]
    rfl
  | .more before name beforeColon afterColon value after rest => by
    rw [Members.trees, JsonTree.nestings, JsonTree.nesting_withLabel, value.nesting_tree,
      rest.nestings_trees, Members.nesting]

end

end Grammar

/-! ## Documents -/

namespace Document

open Grammar Reading

theorem ne_nil_of_read {options : ReadOptions} {bytes : List UInt8} {d : Document}
    (h : Document.read options none bytes = .ok d) :
    bytes ≠ [] ∧ options.tooLong bytes = none := by
  unfold Document.read Builder.read at h
  cases bytes with
  | nil => cases h
  | cons b bytes =>
    refine ⟨List.cons_ne_nil b bytes, ?_⟩
    cases hlength : options.tooLong (b :: bytes) with
    | none => rfl
    | some fault =>
      rw [hlength] at h
      cases h

/-- What is read has a derivation within the text, behind blanks. -/
theorem exists_value_of_read {options : ReadOptions} {bytes : List UInt8} {d : Document}
    (h : Document.read options none bytes = .ok d) :
    ∃ (before : Blanks) (v : Value) (after : List UInt8),
      content bytes = before.bytes ++ (v.bytes ++ after) ∧ v.tree = d.tree ∧
      v.nesting ≤ options.maxDepth.toNat := by
  obtain ⟨hne, hlength⟩ := ne_nil_of_read h
  obtain ⟨c, hdocument, -⟩ := (read_eq_ok_iff hne hlength).1 h
  unfold document at hdocument
  rw [bind_eq_ok_iff] at hdocument
  obtain ⟨⟨t, c'⟩, hvalue, hrest⟩ := hdocument
  have htree : t = d.tree := by
    simp only at hrest
    split at hrest
    · split at hrest
      · cases hrest
        rfl
      · cases hrest
    · cases hrest
      rfl
  obtain ⟨v, hv, hvtree, hdepth⟩ := value_sound _ _ hvalue
  obtain ⟨before, hbefore⟩ := exists_blanks (content bytes)
  replace hv : skipBlanks (content bytes) = v.bytes ++ c'.rest := hv
  exact ⟨before, v, c'.rest, hv ▸ hbefore.symm, hvtree.trans htree, hdepth⟩

/-- What is read is a tree of tokens. -/
theorem asRead_of_read {options : ReadOptions} {bytes : List UInt8} {d : Document}
    (h : Document.read options none bytes = .ok d) : d.tree.AsRead := by
  obtain ⟨before, v, after, hcontent, htree, -⟩ := exists_value_of_read h
  rw [← htree]
  refine v.asRead_tree fun hzero => zero_not_mem_content bytes ?_
  rw [hcontent]
  exact List.mem_append_right _ (List.mem_append_left _ hzero)

/-- What is read as a whole is read the same if more may follow. -/
theorem read_of_read_whole {maxDepth : Int} {maxLength : Option Int} {bytes : List UInt8}
    {d : Document} (h : Document.read ⟨true, maxDepth, maxLength⟩ none bytes = .ok d) :
    ∃ stop, Document.read ⟨false, maxDepth, maxLength⟩ none bytes = .ok ⟨d.tree, stop⟩ := by
  obtain ⟨hne, hlength⟩ := ne_nil_of_read h
  obtain ⟨c, hdocument, -⟩ := (read_eq_ok_iff hne hlength).1 h
  obtain ⟨c', hvalue, -, -⟩ := document_whole_eq_ok_iff.1 hdocument
  have hlength' : (ReadOptions.mk false maxDepth maxLength).tooLong bytes = none := hlength
  refine ⟨(content bytes).length - c'.rest.length, (read_eq_ok_iff hne hlength').2 ⟨c', ?_, rfl⟩⟩
  unfold document
  rw [bind_eq_ok_iff]
  exact ⟨_, hvalue, rfl⟩

end Document

end LinkedJson
