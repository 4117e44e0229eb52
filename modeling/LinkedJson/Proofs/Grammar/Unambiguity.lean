import LinkedJson.Proofs.Grammar.Derivation

/-!
# A text has at most one derivation

What stands behind a value begins with a blank, a comma or a closing bracket, or is nothing
(`Follows`). Under that condition two derivations that agree on a text agree on how far they reach,
so they are the same by induction on the first: its first byte tells its production, a run of blanks
ends where the first other byte stands, and a literal ends where its reader stops.
-/

namespace LinkedJson.Grammar

open Ascii

/-! ## Blanks -/

/-- The text begins with no blank. -/
def NoBlank (text : List UInt8) : Prop :=
  ∀ b ∈ text.head?, isBlank b = false

theorem noBlank_cons {b : UInt8} {text : List UInt8} (h : isBlank b = false) :
    NoBlank (b :: text) := by
  intro c hc
  cases hc
  exact h

theorem skipBlanks_of_noBlank {text : List UInt8} (h : NoBlank text) : skipBlanks text = text := by
  cases text with
  | nil => rfl
  | cons b text =>
    have hb := h b rfl
    simp [skipBlanks, hb]

@[simp] theorem skipBlanks_append (w : Blanks) (text : List UInt8) :
    skipBlanks (w.bytes ++ text) = skipBlanks text :=
  List.dropWhile_append_of_pos w.isBlank

theorem Blanks.append_inj {w w' : Blanks} {r r' : List UInt8} (h : w.bytes ++ r = w'.bytes ++ r')
    (hr : NoBlank r) (hr' : NoBlank r') : w = w' ∧ r = r' := by
  have e : r = r' := by
    have hskip := congrArg skipBlanks h
    rwa [skipBlanks_append, skipBlanks_append, skipBlanks_of_noBlank hr,
      skipBlanks_of_noBlank hr'] at hskip
  subst e
  exact ⟨Blanks.ext (List.append_cancel_right h), rfl⟩

/-! ## What follows a value -/

/-- What may stand behind a value. -/
def Follows (rest : List UInt8) : Prop :=
  ∀ b ∈ rest.head?, isBlank b = true ∨ b = comma ∨ b = closeBracket ∨ b = closeBrace

theorem Follows.stops {rest : List UInt8} (h : Follows rest) : NumberLiteral.Stops rest := by
  intro b hb
  rcases h b hb with hblank | rfl | rfl | rfl
  · -- blanks are below the digits, the point and the marks
    have hle := (isBlank_iff.1 hblank).2
    refine ⟨?_, ?_, ?_, ?_⟩
    · rw [Bool.eq_false_iff, ne_eq, isDigit_iff]
      omega
    all_goals
      intro heq
      subst heq
      exact absurd hle (by decide)
  · decide
  · decide
  · decide

theorem follows_nil : Follows [] :=
  fun _ h => nomatch h

theorem follows_cons {b : UInt8} (h : b = comma ∨ b = closeBracket ∨ b = closeBrace)
    (text : List UInt8) : Follows (b :: text) := by
  intro c hc
  cases hc
  exact .inr h

theorem follows_append (w : Blanks) {rest : List UInt8} (h : Follows rest) :
    Follows (w.bytes ++ rest) := by
  intro b hb
  cases hw : w.bytes with
  | nil =>
    rw [hw] at hb
    exact h b hb
  | cons c bytes =>
    rw [hw] at hb
    cases hb
    exact .inl (w.isBlank _ (by simp [hw]))

/-! ## The first byte of a value -/

/-- The bytes that a production may begin with. -/
def Value.Starts : Value → UInt8 → Prop
  | .null, b => b = 0x6e
  | .bool true, b => b = 0x74
  | .bool false, b => b = 0x66
  | .string _, b => b = quote
  | .number _, b => b = minus ∨ isDigit b = true
  | .emptyArray _, b | .array _, b => b = openBracket
  | .emptyObject _, b | .object _, b => b = openBrace

theorem StringToken.exists_cons (t : StringToken) : ∃ inner, t.literal = quote :: inner :=
  StringLiteral.head_of_read t.read_literal

theorem Value.exists_cons (v : Value) : ∃ b text, v.bytes = b :: text ∧ v.Starts b := by
  cases v with
  | null => exact ⟨0x6e, _, rfl, rfl⟩
  | bool value => cases value <;> exact ⟨_, _, rfl, rfl⟩
  | string token =>
    obtain ⟨inner, h⟩ := token.exists_cons
    exact ⟨quote, inner, h, rfl⟩
  | number token =>
    obtain ⟨b, hb, h⟩ := token.head
    obtain ⟨text, ht⟩ := List.head?_eq_some_iff.1 hb
    exact ⟨b, text, ht, h⟩
  | emptyArray inside => exact ⟨openBracket, _, rfl, rfl⟩
  | array items => exact ⟨openBracket, _, rfl, rfl⟩
  | emptyObject inside => exact ⟨openBrace, _, rfl, rfl⟩
  | object members => exact ⟨openBrace, _, rfl, rfl⟩

/-- A byte that begins a value is no blank, no comma and no closing bracket. -/
theorem Value.Starts.not_follows {v : Value} {b : UInt8} (h : v.Starts b) :
    isBlank b = false ∧ b ≠ comma ∧ b ≠ closeBracket ∧ b ≠ closeBrace := by
  have digit : isDigit b = true →
      isBlank b = false ∧ b ≠ comma ∧ b ≠ closeBracket ∧ b ≠ closeBrace := by
    intro hd
    have hb := isDigit_iff.1 hd
    refine ⟨?_, ?_, ?_, ?_⟩
    · rw [Bool.eq_false_iff, ne_eq, isBlank_iff]
      omega
    all_goals
      intro heq
      subst heq
      exact absurd hb (by decide)
  cases v with
  | bool value =>
    cases value <;> · cases h; decide
  | number token =>
    rcases h with rfl | hd
    · decide
    · exact digit hd
  | _ => cases h; decide

theorem Value.noBlank (v : Value) (text : List UInt8) : NoBlank (v.bytes ++ text) := by
  obtain ⟨b, tail, h, hs⟩ := v.exists_cons
  rw [h]
  exact noBlank_cons hs.not_follows.1

/-- The production that a first byte stands for; both forms of a container begin alike. -/
def productionOf (b : UInt8) : Nat :=
  if b = 0x6e then 0 else if b = 0x74 then 1 else if b = 0x66 then 2 else if b = quote then 3
  else if b = openBracket then 4 else if b = openBrace then 5 else 6

def Value.production : Value → Nat
  | .null => 0
  | .bool true => 1
  | .bool false => 2
  | .string _ => 3
  | .emptyArray _ | .array _ => 4
  | .emptyObject _ | .object _ => 5
  | .number _ => 6

theorem Value.Starts.productionOf_eq {v : Value} {b : UInt8} (h : v.Starts b) :
    productionOf b = v.production := by
  cases v with
  | bool value => cases value <;> · cases h; decide
  | number token =>
    rcases h with rfl | hd
    · rfl
    · have hb := isDigit_iff.1 hd
      have ne : ∀ c : UInt8, 0x39 < c.toNat ∨ c.toNat < 0x30 → b ≠ c := by
        intro c hc heq
        subst heq
        omega
      simp only [productionOf, ne 0x6e (by decide), ne 0x74 (by decide), ne 0x66 (by decide),
        ne quote (by decide), ne openBracket (by decide), ne openBrace (by decide), if_false,
        production]
  | _ => cases h; rfl

/-- Two values at the front of one text are of one production. -/
theorem Value.production_eq {v v' : Value} {r r' : List UInt8}
    (h : v.bytes ++ r = v'.bytes ++ r') : v.production = v'.production := by
  obtain ⟨b, text, hb, hs⟩ := v.exists_cons
  obtain ⟨b', text', hb', hs'⟩ := v'.exists_cons
  rw [hb, hb', List.cons_append, List.cons_append, List.cons.injEq] at h
  rw [← hs.productionOf_eq, ← hs'.productionOf_eq, h.1]

/-! ## Literals -/

theorem StringToken.append_inj {t t' : StringToken} {r r' : List UInt8}
    (h : t.literal ++ r = t'.literal ++ r') : t = t' ∧ r = r' := by
  have hr := StringLiteral.read_append t.read_literal r
  rw [h, StringLiteral.read_append t'.read_literal r'] at hr
  cases t
  cases t'
  cases hr
  cases List.append_cancel_right h
  exact ⟨rfl, rfl⟩

theorem NumberToken.append_inj {t t' : NumberToken} {r r' : List UInt8}
    (h : t.literal ++ r = t'.literal ++ r') (hr : Follows r) (hr' : Follows r') :
    t = t' ∧ r = r' := by
  have hread := NumberLiteral.read_append t.read_literal hr.stops
  rw [h, NumberLiteral.read_append t'.read_literal hr'.stops] at hread
  cases t
  cases t'
  cases hread
  cases List.append_cancel_right h
  exact ⟨rfl, rfl⟩

/-! ## Spaced values -/

/-- The text begins with a comma or a closing bracket. -/
def Ends (rest : List UInt8) : Prop :=
  ∃ b text, rest = b :: text ∧ (b = comma ∨ b = closeBracket ∨ b = closeBrace)

theorem ends_cons {b : UInt8} (h : b = comma ∨ b = closeBracket ∨ b = closeBrace)
    (text : List UInt8) : Ends (b :: text) :=
  ⟨b, text, rfl, h⟩

theorem Ends.follows {rest : List UInt8} (h : Ends rest) : Follows rest := by
  obtain ⟨b, text, rfl, h⟩ := h
  exact follows_cons h text

theorem Ends.noBlank {rest : List UInt8} (h : Ends rest) : NoBlank rest := by
  obtain ⟨b, text, rfl, rfl | rfl | rfl⟩ := h <;> exact noBlank_cons (by decide)

theorem spaced_append_inj {b b' a a' : Blanks} {v v' : Value} {r r' : List UInt8}
    (value : ∀ {r r' : List UInt8}, v.bytes ++ r = v'.bytes ++ r' → Follows r → Follows r' →
      v = v' ∧ r = r')
    (h : b.bytes ++ (v.bytes ++ (a.bytes ++ r)) = b'.bytes ++ (v'.bytes ++ (a'.bytes ++ r')))
    (hr : Ends r) (hr' : Ends r') : b = b' ∧ v = v' ∧ a = a' ∧ r = r' := by
  obtain ⟨hb, h⟩ := Blanks.append_inj h (v.noBlank _) (v'.noBlank _)
  obtain ⟨hv, h⟩ := value h (follows_append a hr.follows) (follows_append a' hr'.follows)
  obtain ⟨ha, h⟩ := Blanks.append_inj h hr.noBlank hr'.noBlank
  exact ⟨hb, hv, ha, h⟩

theorem StringToken.noBlank (t : StringToken) (text : List UInt8) :
    NoBlank (t.literal ++ text) := by
  obtain ⟨inner, h⟩ := t.exists_cons
  rw [h]
  exact noBlank_cons (by decide)

theorem named_append_inj {b b' c c' : Blanks} {n n' : StringToken} {r r' : List UInt8}
    (h : b.bytes ++ (n.literal ++ (c.bytes ++ colon :: r)) =
      b'.bytes ++ (n'.literal ++ (c'.bytes ++ colon :: r'))) :
    b = b' ∧ n = n' ∧ c = c' ∧ r = r' := by
  obtain ⟨hb, h⟩ := Blanks.append_inj h (n.noBlank _) (n'.noBlank _)
  obtain ⟨hn, h⟩ := StringToken.append_inj h
  obtain ⟨hc, h⟩ := Blanks.append_inj h (noBlank_cons (by decide)) (noBlank_cons (by decide))
  exact ⟨hb, hn, hc, List.tail_eq_of_cons_eq h⟩

theorem Value.bytes_emptyArray_append (w : Blanks) (r : List UInt8) :
    (emptyArray w).bytes ++ r = openBracket :: (w.bytes ++ closeBracket :: r) := by
  simp [bytes]

theorem Value.bytes_array_append (i : Items) (r : List UInt8) :
    (array i).bytes ++ r = openBracket :: (i.bytes ++ closeBracket :: r) := by
  simp [bytes]

theorem Value.bytes_emptyObject_append (w : Blanks) (r : List UInt8) :
    (emptyObject w).bytes ++ r = openBrace :: (w.bytes ++ closeBrace :: r) := by
  simp [bytes]

theorem Value.bytes_object_append (m : Members) (r : List UInt8) :
    (object m).bytes ++ r = openBrace :: (m.bytes ++ closeBrace :: r) := by
  simp [bytes]

/-- A nonempty container does not close behind its first blanks. -/
theorem Items.not_closed (i : Items) (w : Blanks) (r r' : List UInt8) :
    w.bytes ++ closeBracket :: r ≠ i.bytes ++ r' := by
  have key : ∀ (b : Blanks) (v : Value) (text : List UInt8),
      w.bytes ++ closeBracket :: r ≠ b.bytes ++ (v.bytes ++ text) := by
    intro b v text h
    obtain ⟨-, h⟩ := Blanks.append_inj h (noBlank_cons (by decide)) (v.noBlank _)
    obtain ⟨c, tail, hc, hs⟩ := v.exists_cons
    rw [hc] at h
    cases h
    exact hs.not_follows.2.2.1 rfl
  cases i with
  | last b v a =>
    simp only [bytes, List.append_assoc]
    exact key b v _
  | more b v a rest =>
    simp only [bytes, List.append_assoc]
    exact key b v _

theorem Members.not_closed (m : Members) (w : Blanks) (r r' : List UInt8) :
    w.bytes ++ closeBrace :: r ≠ m.bytes ++ r' := by
  have key : ∀ (b : Blanks) (n : StringToken) (text : List UInt8),
      w.bytes ++ closeBrace :: r ≠ b.bytes ++ (n.literal ++ text) := by
    intro b n text h
    obtain ⟨-, h⟩ := Blanks.append_inj h (noBlank_cons (by decide)) (n.noBlank _)
    obtain ⟨inner, hn⟩ := n.exists_cons
    rw [hn] at h
    cases h
  cases m with
  | last b n c c' v a =>
    simp only [bytes, List.append_assoc]
    exact key b n _
  | more b n c c' v a rest =>
    simp only [bytes, List.append_assoc]
    exact key b n _

/-! ## Derivations -/

mutual

theorem Value.append_inj (v v' : Value) {r r' : List UInt8} (h : v.bytes ++ r = v'.bytes ++ r')
    (hr : Follows r) (hr' : Follows r') : v = v' ∧ r = r' := by
  have hp := Value.production_eq h
  cases v with
  | null =>
    cases v' with
    | null => exact ⟨rfl, List.append_cancel_left h⟩
    | bool value => cases value <;> cases hp
    | _ => cases hp
  | bool value =>
    cases v' with
    | bool value' =>
      have e : value = value' := by cases value <;> cases value' <;> first | rfl | cases hp
      subst e
      exact ⟨rfl, List.append_cancel_left h⟩
    | _ => cases value <;> cases hp
  | string token =>
    cases v' with
    | string token' =>
      obtain ⟨rfl, rfl⟩ := StringToken.append_inj h
      exact ⟨rfl, rfl⟩
    | bool value => cases value <;> cases hp
    | _ => cases hp
  | number token =>
    cases v' with
    | number token' =>
      obtain ⟨rfl, rfl⟩ := NumberToken.append_inj h hr hr'
      exact ⟨rfl, rfl⟩
    | bool value => cases value <;> cases hp
    | _ => cases hp
  | emptyArray inside =>
    cases v' with
    | emptyArray inside' =>
      rw [Value.bytes_emptyArray_append, Value.bytes_emptyArray_append] at h
      replace h := List.tail_eq_of_cons_eq h
      obtain ⟨rfl, hclose⟩ :=
        Blanks.append_inj h (noBlank_cons (by decide)) (noBlank_cons (by decide))
      exact ⟨rfl, List.tail_eq_of_cons_eq hclose⟩
    | array items' =>
      rw [Value.bytes_emptyArray_append, Value.bytes_array_append] at h
      replace h := List.tail_eq_of_cons_eq h
      exact absurd h (items'.not_closed inside _ _)
    | bool value => cases value <;> cases hp
    | _ => cases hp
  | array items =>
    cases v' with
    | emptyArray inside' =>
      rw [Value.bytes_array_append, Value.bytes_emptyArray_append] at h
      replace h := List.tail_eq_of_cons_eq h
      exact absurd h.symm (items.not_closed inside' _ _)
    | array items' =>
      rw [Value.bytes_array_append, Value.bytes_array_append] at h
      replace h := List.tail_eq_of_cons_eq h
      obtain ⟨rfl, rfl⟩ := Items.append_inj items items' h
      exact ⟨rfl, rfl⟩
    | bool value => cases value <;> cases hp
    | _ => cases hp
  | emptyObject inside =>
    cases v' with
    | emptyObject inside' =>
      rw [Value.bytes_emptyObject_append, Value.bytes_emptyObject_append] at h
      replace h := List.tail_eq_of_cons_eq h
      obtain ⟨rfl, hclose⟩ :=
        Blanks.append_inj h (noBlank_cons (by decide)) (noBlank_cons (by decide))
      exact ⟨rfl, List.tail_eq_of_cons_eq hclose⟩
    | object members' =>
      rw [Value.bytes_emptyObject_append, Value.bytes_object_append] at h
      replace h := List.tail_eq_of_cons_eq h
      exact absurd h (members'.not_closed inside _ _)
    | bool value => cases value <;> cases hp
    | _ => cases hp
  | object members =>
    cases v' with
    | emptyObject inside' =>
      rw [Value.bytes_object_append, Value.bytes_emptyObject_append] at h
      replace h := List.tail_eq_of_cons_eq h
      exact absurd h.symm (members.not_closed inside' _ _)
    | object members' =>
      rw [Value.bytes_object_append, Value.bytes_object_append] at h
      replace h := List.tail_eq_of_cons_eq h
      obtain ⟨rfl, rfl⟩ := Members.append_inj members members' h
      exact ⟨rfl, rfl⟩
    | bool value => cases value <;> cases hp
    | _ => cases hp

theorem Items.append_inj (i i' : Items) {r r' : List UInt8}
    (h : i.bytes ++ closeBracket :: r = i'.bytes ++ closeBracket :: r') : i = i' ∧ r = r' := by
  have hclose : ∀ text, Ends (closeBracket :: text) := ends_cons (.inr (.inl rfl))
  have hcomma : ∀ text, Ends (comma :: text) := ends_cons (.inl rfl)
  cases i with
  | last b v a =>
    cases i' with
    | last b' v' a' =>
      simp only [Items.bytes, List.append_assoc] at h
      obtain ⟨rfl, rfl, rfl, hend⟩ :=
        spaced_append_inj (Value.append_inj v v') h (hclose _) (hclose _)
      exact ⟨rfl, List.tail_eq_of_cons_eq hend⟩
    | more b' v' a' rest' =>
      simp only [Items.bytes, List.append_assoc, List.cons_append] at h
      obtain ⟨-, -, -, hend⟩ := spaced_append_inj (Value.append_inj v v') h (hclose _) (hcomma _)
      cases hend
  | more b v a rest =>
    cases i' with
    | last b' v' a' =>
      simp only [Items.bytes, List.append_assoc, List.cons_append] at h
      obtain ⟨-, -, -, hend⟩ := spaced_append_inj (Value.append_inj v v') h (hcomma _) (hclose _)
      cases hend
    | more b' v' a' rest' =>
      simp only [Items.bytes, List.append_assoc, List.cons_append] at h
      obtain ⟨rfl, rfl, rfl, hend⟩ :=
        spaced_append_inj (Value.append_inj v v') h (hcomma _) (hcomma _)
      obtain ⟨rfl, rfl⟩ := Items.append_inj rest rest' (List.tail_eq_of_cons_eq hend)
      exact ⟨rfl, rfl⟩

theorem Members.append_inj (m m' : Members) {r r' : List UInt8}
    (h : m.bytes ++ closeBrace :: r = m'.bytes ++ closeBrace :: r') : m = m' ∧ r = r' := by
  have hclose : ∀ text, Ends (closeBrace :: text) := ends_cons (.inr (.inr rfl))
  have hcomma : ∀ text, Ends (comma :: text) := ends_cons (.inl rfl)
  cases m with
  | last b n c d v a =>
    cases m' with
    | last b' n' c' d' v' a' =>
      simp only [Members.bytes, List.append_assoc, List.cons_append] at h
      obtain ⟨rfl, rfl, rfl, hvalue⟩ := named_append_inj h
      obtain ⟨rfl, rfl, rfl, hend⟩ :=
        spaced_append_inj (Value.append_inj v v') hvalue (hclose _) (hclose _)
      exact ⟨rfl, List.tail_eq_of_cons_eq hend⟩
    | more b' n' c' d' v' a' rest' =>
      simp only [Members.bytes, List.append_assoc, List.cons_append] at h
      obtain ⟨-, -, -, hvalue⟩ := named_append_inj h
      obtain ⟨-, -, -, hend⟩ := spaced_append_inj (Value.append_inj v v') hvalue (hclose _) (hcomma _)
      cases hend
  | more b n c d v a rest =>
    cases m' with
    | last b' n' c' d' v' a' =>
      simp only [Members.bytes, List.append_assoc, List.cons_append] at h
      obtain ⟨-, -, -, hvalue⟩ := named_append_inj h
      obtain ⟨-, -, -, hend⟩ := spaced_append_inj (Value.append_inj v v') hvalue (hcomma _) (hclose _)
      cases hend
    | more b' n' c' d' v' a' rest' =>
      simp only [Members.bytes, List.append_assoc, List.cons_append] at h
      obtain ⟨rfl, rfl, rfl, hvalue⟩ := named_append_inj h
      obtain ⟨rfl, rfl, rfl, hend⟩ :=
        spaced_append_inj (Value.append_inj v v') hvalue (hcomma _) (hcomma _)
      obtain ⟨rfl, rfl⟩ := Members.append_inj rest rest' (List.tail_eq_of_cons_eq hend)
      exact ⟨rfl, rfl⟩

end

/-- **The grammar is unambiguous.** -/
theorem Text.bytes_injective {t t' : Text} (h : t.bytes = t'.bytes) : t = t' := by
  cases t with
  | mk before value after =>
    cases t' with
    | mk before' value' after' =>
      replace h : before.bytes ++ (value.bytes ++ after.bytes) =
          before'.bytes ++ (value'.bytes ++ after'.bytes) := h
      obtain ⟨rfl, hvalue⟩ := Blanks.append_inj h (value.noBlank _) (value'.noBlank _)
      have hend : ∀ w : Blanks, Follows w.bytes := by
        intro w
        have := follows_append w follows_nil
        rwa [List.append_nil] at this
      obtain ⟨rfl, hafter⟩ := Value.append_inj value value' hvalue (hend after) (hend after')
      cases Blanks.ext hafter
      rfl

end LinkedJson.Grammar
