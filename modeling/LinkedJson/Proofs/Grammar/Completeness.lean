import LinkedJson.Proofs.Grammar.Unambiguity
import LinkedJson.Proofs.Reading.Steps

/-!
# Every derivation is read

The reader of trees, at the front of a text that a derivation wrote, builds the tree of the
derivation and stops behind it (`Value.read_eq`), by induction on the derivation. What follows the
value must not prolong its last token; the levels must suffice for its nesting, and the commas of
one container for its length.
-/

namespace LinkedJson.Grammar

open Ascii Reading

/-! ## Tokens -/

theorem StringToken.atomAt (t : StringToken) (rest : List UInt8) :
    AtomAt (t.literal ++ rest) (.string t.value) rest :=
  .string (StringLiteral.read_append t.read_literal rest)

theorem NumberToken.atomAt (t : NumberToken) {rest : List UInt8} (h : Follows rest) :
    AtomAt (t.literal ++ rest) (.number (.ofDouble t.value)) rest := by
  have hread := NumberLiteral.read_append t.read_literal h.stops
  obtain ⟨b, hb, hfirst⟩ := t.head
  obtain ⟨text, ht⟩ := List.head?_eq_some_iff.1 hb
  rw [ht, List.cons_append] at hread ⊢
  exact .number hfirst hread

/-! ## Blanks between tokens -/

theorem skipBlanks_value (w : Blanks) (v : Value) (text : List UInt8) :
    skipBlanks (w.bytes ++ (v.bytes ++ text)) = v.bytes ++ text := by
  rw [skipBlanks_append, skipBlanks_of_noBlank (v.noBlank text)]

theorem skipBlanks_name (w : Blanks) (t : StringToken) (text : List UInt8) :
    skipBlanks (w.bytes ++ (t.literal ++ text)) = t.literal ++ text := by
  rw [skipBlanks_append, skipBlanks_of_noBlank (t.noBlank text)]

theorem skipBlanks_cons (w : Blanks) {b : UInt8} (hb : isBlank b = false) (text : List UInt8) :
    skipBlanks (w.bytes ++ b :: text) = b :: text := by
  rw [skipBlanks_append, skipBlanks_of_noBlank (noBlank_cons hb)]

theorem Items.head?_ne (i : Items) (text : List UInt8) :
    (skipBlanks (i.bytes ++ text)).head? ≠ some closeBracket := by
  have key : ∀ (w : Blanks) (v : Value) (text : List UInt8),
      (skipBlanks (w.bytes ++ (v.bytes ++ text))).head? ≠ some closeBracket := by
    intro w v text h
    obtain ⟨b, tail, hb, hs⟩ := v.exists_cons
    rw [skipBlanks_value, hb] at h
    cases h
    exact hs.not_follows.2.2.1 rfl
  cases i <;>
  · simp only [Items.bytes, List.append_assoc]
    exact key _ _ _

theorem Members.head?_ne (m : Members) (text : List UInt8) :
    (skipBlanks (m.bytes ++ text)).head? ≠ some closeBrace := by
  have key : ∀ (w : Blanks) (t : StringToken) (text : List UInt8),
      (skipBlanks (w.bytes ++ (t.literal ++ text))).head? ≠ some closeBrace := by
    intro w t text h
    obtain ⟨inner, ht⟩ := t.exists_cons
    rw [skipBlanks_name, ht] at h
    cases h
  cases m <;>
  · simp only [Members.bytes, List.append_assoc]
    exact key _ _ _

/-! ## One turn of a loop -/

section

variable {limits : ReadLimits} {levels commas n : Nat} {children : List JsonTree}

/-- A member behind its name and colon. -/
theorem member_eq_ok {name : StringToken} {c c' : Blanks} {v : Value} {t : JsonTree} {m : Nat}
    {rest : List UInt8}
    (h : value (JsonTree.builder none) limits levels ⟨v.bytes ++ rest, n⟩ = .ok (t, ⟨rest, m⟩)) :
    member (JsonTree.builder none) (value (JsonTree.builder none) limits levels)
        ⟨name.literal ++ (c.bytes ++ colon :: (c'.bytes ++ (v.bytes ++ rest))), n⟩ =
      .ok (t.withLabel (.owned name.value), ⟨rest, m⟩) := by
  refine member_eq_ok_iff.2 ⟨name.value, _, c'.bytes ++ (v.bytes ++ rest), t, ⟨rest, m⟩,
    StringLiteral.read_append name.read_literal _, skipBlanks_cons c (by decide) _, ?_, rfl, rfl⟩
  rw [skipBlanks_value]
  exact h

/-- The last item of a loop: no comma follows it. -/
theorem separated_last {item : Reader Nat JsonTree} {start rest : List UInt8} {t : JsonTree}
    {m : Nat} {after : Blanks} {close : UInt8} (hclose : close = closeBracket ∨ close = closeBrace)
    (h : item ⟨start, n⟩ = .ok (t, ⟨after.bytes ++ close :: rest, m⟩)) :
    separated (JsonTree.builder none) item commas children ⟨start, n⟩ =
      .ok (t :: children, ⟨close :: rest, m⟩) := by
  have hskip : skipBlanks (after.bytes ++ close :: rest) = close :: rest := by
    rcases hclose with rfl | rfl <;> exact skipBlanks_cons after (by decide) rest
  have hcomma : close ≠ comma := by
    rcases hclose with rfl | rfl <;> decide
  refine separated_eq_ok_iff.2 ⟨t, _, h, .inl ⟨rfl, ?_, .inr ?_⟩⟩
  · rw [hskip]
    rfl
  · rw [hskip, List.head?_cons, ne_eq, Option.some.injEq]
    exact hcomma

/-- An item before a comma: the loop goes on behind the blanks after it. -/
theorem separated_more {item : Reader Nat JsonTree} {start rest : List UInt8} {t : JsonTree}
    {m : Nat} {after : Blanks} {r : List JsonTree × Cursor Nat}
    (h : item ⟨start, n⟩ = .ok (t, ⟨after.bytes ++ comma :: rest, m⟩))
    (hrest : separated (JsonTree.builder none) item commas (t :: children)
      ⟨skipBlanks rest, m⟩ = .ok r) :
    separated (JsonTree.builder none) item (commas + 1) children ⟨start, n⟩ = .ok r :=
  separated_eq_ok_iff.2
    ⟨t, _, h, .inr ⟨commas, rest, rfl, skipBlanks_cons after (by decide) rest, hrest⟩⟩

end

/-! ## Derivations -/

mutual

/-- **Completeness.** A value is read wherever a derivation stands in the text. -/
theorem Value.read_eq (v : Value) (limits : ReadLimits) (levels n : Nat) (rest : List UInt8)
    (hlevels : v.nesting ≤ levels) (hcommas : v.bytes.length ≤ limits.maxCommas)
    (hrest : Follows rest) :
    value (JsonTree.builder none) limits levels ⟨v.bytes ++ rest, n⟩ =
      .ok (v.tree, ⟨rest, n + v.tree.nodeCount⟩) := by
  cases v with
  | null => exact value_of_atomAt (.null rest) rfl
  | bool value =>
    cases value with
    | false => exact value_of_atomAt (.false rest) rfl
    | true => exact value_of_atomAt (.true rest) rfl
  | string token => exact value_of_atomAt (token.atomAt rest) rfl
  | number token => exact value_of_atomAt (token.atomAt hrest) rfl
  | emptyArray inside =>
    obtain ⟨levels, rfl⟩ : ∃ k, levels = k + 1 := Nat.exists_eq_add_one.2 hlevels
    rw [Value.bytes_emptyArray_append]
    exact value_eq_ok_iff.2 (.inl ⟨levels, _, rfl, rfl,
      container_eq_ok_iff.2 (.inl ⟨skipBlanks_cons inside (by decide) rest, rfl⟩)⟩)
  | emptyObject inside =>
    obtain ⟨levels, rfl⟩ : ∃ k, levels = k + 1 := Nat.exists_eq_add_one.2 hlevels
    rw [Value.bytes_emptyObject_append]
    exact value_eq_ok_iff.2 (.inr (.inl ⟨levels, _, rfl, rfl,
      container_eq_ok_iff.2 (.inl ⟨skipBlanks_cons inside (by decide) rest, rfl⟩)⟩))
  | array items =>
    rw [Value.nesting] at hlevels
    obtain ⟨levels, rfl⟩ : ∃ k, levels = k + 1 := Nat.exists_eq_add_one.2 (by omega)
    have hlength : items.bytes.length ≤ limits.maxCommas := by
      simp only [Value.bytes, List.length_cons, List.length_append] at hcommas
      omega
    have hitems := Items.read_eq items limits levels limits.maxCommas n [] rest
      (Nat.le_of_succ_le_succ hlevels) hlength hlength
    rw [List.append_nil] at hitems
    rw [Value.bytes_array_append]
    refine value_eq_ok_iff.2 (.inl ⟨levels, _, rfl, rfl, container_eq_ok_iff.2
      (.inr ⟨items.head?_ne _, _, _, hitems, rfl, ?_⟩)⟩)
    simp only [JsonTree.builder, JsonTree.count?, List.reverse_reverse]
    rfl
  | object members =>
    rw [Value.nesting] at hlevels
    obtain ⟨levels, rfl⟩ : ∃ k, levels = k + 1 := Nat.exists_eq_add_one.2 (by omega)
    have hlength : members.bytes.length ≤ limits.maxCommas := by
      simp only [Value.bytes, List.length_cons, List.length_append] at hcommas
      omega
    have hmembers := Members.read_eq members limits levels limits.maxCommas n [] rest
      (Nat.le_of_succ_le_succ hlevels) hlength hlength
    rw [List.append_nil] at hmembers
    rw [Value.bytes_object_append]
    refine value_eq_ok_iff.2 (.inr (.inl ⟨levels, _, rfl, rfl, container_eq_ok_iff.2
      (.inr ⟨members.head?_ne _, _, _, hmembers, rfl, ?_⟩)⟩))
    simp only [JsonTree.builder, JsonTree.count?, List.reverse_reverse]
    rfl

theorem Items.read_eq (i : Items) (limits : ReadLimits) (levels commas n : Nat)
    (children : List JsonTree) (rest : List UInt8) (hlevels : i.nesting ≤ levels)
    (hlimit : i.bytes.length ≤ limits.maxCommas) (hcommas : i.bytes.length ≤ commas) :
    separated (JsonTree.builder none) (value (JsonTree.builder none) limits levels) commas children
        ⟨skipBlanks (i.bytes ++ closeBracket :: rest), n⟩ =
      .ok (i.trees.reverse ++ children,
        ⟨closeBracket :: rest, n + JsonTree.nodeCounts i.trees⟩) := by
  cases i with
  | last before v after =>
    simp only [Items.bytes, List.append_assoc, List.length_append] at hlimit ⊢
    rw [skipBlanks_value]
    have hv := v.read_eq limits levels n _ hlevels (by omega)
      (follows_append after (follows_cons (.inr (.inl rfl)) rest))
    exact separated_last (.inl rfl) hv
  | more before v after items =>
    simp only [Items.bytes, List.append_assoc, List.cons_append, List.length_append,
      List.length_cons] at hlimit hcommas ⊢
    rw [Items.nesting] at hlevels
    rw [skipBlanks_value]
    have hv := v.read_eq limits levels n _ (by omega) (by omega)
      (follows_append after (follows_cons (.inl rfl) (items.bytes ++ closeBracket :: rest)))
    obtain ⟨commas, rfl⟩ : ∃ k, commas = k + 1 := Nat.exists_eq_add_one.2 (by omega)
    apply separated_more hv
    rw [items.read_eq limits levels commas _ _ rest (by omega) (by omega) (by omega)]
    simp [Items.trees, JsonTree.nodeCounts, Nat.add_assoc]

theorem Members.read_eq (m : Members) (limits : ReadLimits) (levels commas n : Nat)
    (children : List JsonTree) (rest : List UInt8) (hlevels : m.nesting ≤ levels)
    (hlimit : m.bytes.length ≤ limits.maxCommas) (hcommas : m.bytes.length ≤ commas) :
    separated (JsonTree.builder none)
        (member (JsonTree.builder none) (value (JsonTree.builder none) limits levels)) commas
        children ⟨skipBlanks (m.bytes ++ closeBrace :: rest), n⟩ =
      .ok (m.trees.reverse ++ children,
        ⟨closeBrace :: rest, n + JsonTree.nodeCounts m.trees⟩) := by
  cases m with
  | last before name beforeColon afterColon v after =>
    simp only [Members.bytes, List.append_assoc, List.cons_append, List.length_append,
      List.length_cons] at hlimit ⊢
    rw [skipBlanks_name]
    have hv := v.read_eq limits levels n _ hlevels (by omega)
      (follows_append after (follows_cons (.inr (.inr rfl)) rest))
    rw [separated_last (.inr rfl) (member_eq_ok hv)]
    simp [Members.trees, JsonTree.nodeCounts]
  | more before name beforeColon afterColon v after members =>
    simp only [Members.bytes, List.append_assoc, List.cons_append, List.length_append,
      List.length_cons] at hlimit hcommas ⊢
    rw [Members.nesting] at hlevels
    rw [skipBlanks_name]
    have hv := v.read_eq limits levels n _ (by omega) (by omega)
      (follows_append after (follows_cons (.inl rfl) (members.bytes ++ closeBrace :: rest)))
    obtain ⟨commas, rfl⟩ : ∃ k, commas = k + 1 := Nat.exists_eq_add_one.2 (by omega)
    apply separated_more (member_eq_ok hv)
    rw [members.read_eq limits levels commas _ _ rest (by omega) (by omega) (by omega)]
    simp [Members.trees, JsonTree.nodeCounts, Nat.add_assoc]

end

end LinkedJson.Grammar
