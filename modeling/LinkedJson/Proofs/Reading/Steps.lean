import LinkedJson.Document.Reading
import LinkedJson.Proofs.Literal.StringExtent

/-!
# What one step of the reader does

For each of the readers, when it succeeds and where it ends. The readers call each other through
these equations only, so that an induction over a document opens no definition. They hold for every
builder.
-/

namespace LinkedJson.Reading

open Ascii

variable {σ ν κ : Type} {b : Builder σ ν κ}

/-! ## Bytes and words -/

theorem afterByte?_eq_some_iff {c : UInt8} {text rest : List UInt8} :
    afterByte? c text = some rest ↔ text = c :: rest := by
  cases text with
  | nil => simp [afterByte?]
  | cons d text =>
    by_cases h : d = c
    · simp [afterByte?, h]
    · simp [afterByte?, h]

theorem afterByte?_eq_none_iff {c : UInt8} {text : List UInt8} :
    afterByte? c text = none ↔ text.head? ≠ some c := by
  cases text with
  | nil => simp [afterByte?]
  | cons d text =>
    by_cases h : d = c
    · simp [afterByte?, h]
    · simp [afterByte?, h]

theorem afterWord?_eq_some_iff {word : String} {text rest : List UInt8} :
    afterWord? word text = some rest ↔ text = Utf8.encode word ++ rest := by
  unfold afterWord?
  split
  · rename_i h
    obtain ⟨t, rfl⟩ := List.isPrefixOf_iff_prefix.1 h
    rw [List.drop_left, Option.some.injEq]
    exact ⟨fun e => e ▸ rfl, fun e => List.append_cancel_left e⟩
  · rename_i h
    constructor
    · intro e
      cases e
    · intro heq
      subst heq
      exact absurd (List.isPrefixOf_iff_prefix.2 (List.prefix_append ..)) h

/-- A word is not at the front of a text with another first byte. -/
theorem afterWord?_eq_none {word : String} {c d : UInt8} {text : List UInt8}
    (hw : (Utf8.encode word).head? = some c) (h : d ≠ c) : afterWord? word (d :: text) = none := by
  cases e : afterWord? word (d :: text) with
  | none => rfl
  | some rest =>
    have ht := afterWord?_eq_some_iff.1 e
    obtain ⟨tail, htail⟩ := List.head?_eq_some_iff.1 hw
    rw [htail, List.cons_append, List.cons.injEq] at ht
    exact absurd ht.1 h

/-! ## Scalars -/

theorem scalar_eq_ok_iff {start : List UInt8} {v : Scalar} {c c' : Cursor σ} {node : ν} :
    scalar b start v c = .ok (node, c') ↔
      b.scalar v c.state = some (node, c'.state) ∧ c'.rest = c.rest := by
  unfold scalar
  split
  · rename_i h
    simp [h]
  · rename_i n s h
    cases c' with
    | mk rest state =>
      simp only [h, Except.ok.injEq, Prod.mk.injEq, Cursor.mk.injEq, Option.some.injEq]
      constructor
      · intro h
        obtain ⟨rfl, rfl, rfl⟩ := h
        exact ⟨⟨rfl, rfl⟩, rfl⟩
      · intro h
        obtain ⟨⟨rfl, rfl⟩, rfl⟩ := h
        exact ⟨rfl, rfl, rfl⟩

/-- The scalar that a text begins with, and what stands behind it. -/
inductive AtomAt : List UInt8 → Scalar → List UInt8 → Prop
  | null (rest : List UInt8) : AtomAt (Utf8.encode "null" ++ rest) .null rest
  | false (rest : List UInt8) : AtomAt (Utf8.encode "false" ++ rest) (.bool false) rest
  | true (rest : List UInt8) : AtomAt (Utf8.encode "true" ++ rest) (.bool true) rest
  | string {text rest : List UInt8} {s : String} :
      StringLiteral.read text = .ok (s, rest) → AtomAt text (.string s) rest
  | number {first : UInt8} {text rest : List UInt8} {d : Double} :
      first = minus ∨ isDigit first = true →
        NumberLiteral.read (first :: text) = .ok (d, rest) →
          AtomAt (first :: text) (.number (.ofDouble d)) rest

theorem ofScan_eq_ok_iff {α : Type} {s : σ} {scan : Scan (α × List UInt8)} {a : α}
    {c : Cursor σ} : ofScan s scan = .ok (a, c) ↔ scan = .ok (a, c.rest) ∧ c.state = s := by
  obtain ⟨rest, state⟩ := c
  cases scan with
  | error e => simp [ofScan]
  | ok p =>
    obtain ⟨a', rest'⟩ := p
    simp [ofScan, eq_comm, and_assoc]

theorem ofScan_bind_eq_ok_iff {α β : Type} {s : σ} {scan : Scan (α × List UInt8)}
    {f : α × Cursor σ → Reading σ β} {r : β} :
    (ofScan s scan >>= f) = .ok r ↔
      ∃ a rest, scan = .ok (a, rest) ∧ f (a, ⟨rest, s⟩) = .ok r := by
  rw [bind_eq_ok_iff]
  constructor
  · intro h
    obtain ⟨⟨a, rest, state⟩, h, hf⟩ := h
    obtain ⟨hscan, rfl⟩ := ofScan_eq_ok_iff.1 h
    exact ⟨a, rest, hscan, hf⟩
  · intro h
    obtain ⟨a, rest, h, hf⟩ := h
    exact ⟨(a, ⟨rest, s⟩), ofScan_eq_ok_iff.2 ⟨h, rfl⟩, hf⟩

/-- Which words a text begins with, told by its first byte. -/
theorem afterWord?_cons_eq_none {first : UInt8} (text : List UInt8)
    (h : first = quote ∨ first = minus ∨ isDigit first = true) :
    afterWord? "null" (first :: text) = none ∧ afterWord? "false" (first :: text) = none ∧
      afterWord? "true" (first :: text) = none := by
  have ne : ∀ c : UInt8, c.toNat > 0x39 → first ≠ c := by
    intro c hc heq
    subst heq
    rcases h with rfl | rfl | h
    · exact absurd hc (by decide)
    · exact absurd hc (by decide)
    · have := isDigit_iff.1 h
      omega
  exact ⟨afterWord?_eq_none (c := 0x6e) rfl (ne _ (by decide)),
    afterWord?_eq_none (c := 0x66) rfl (ne _ (by decide)),
    afterWord?_eq_none (c := 0x74) rfl (ne _ (by decide))⟩

/-- A scalar is read exactly where one stands. -/
theorem atom_eq_ok_iff {c c' : Cursor σ} {node : ν} :
    atom b c = .ok (node, c') ↔
      ∃ v, AtomAt c.rest v c'.rest ∧ b.scalar v c.state = some (node, c'.state) := by
  obtain ⟨text, state⟩ := c
  constructor
  · intro h
    unfold atom at h
    simp only at h
    split at h
    · rename_i rest _ _ hw
      obtain ⟨ht, he⟩ := scalar_eq_ok_iff.1 h
      rw [afterWord?_eq_some_iff.1 hw, he]
      exact ⟨_, .null _, ht⟩
    · rename_i rest _ hw _
      obtain ⟨ht, he⟩ := scalar_eq_ok_iff.1 h
      rw [afterWord?_eq_some_iff.1 hw, he]
      exact ⟨_, .false _, ht⟩
    · rename_i rest hw _ _
      obtain ⟨ht, he⟩ := scalar_eq_ok_iff.1 h
      rw [afterWord?_eq_some_iff.1 hw, he]
      exact ⟨_, .true _, ht⟩
    · split at h
      · cases h
      · rename_i first tail
        split at h
        · obtain ⟨s, rest, hread, h⟩ := ofScan_bind_eq_ok_iff.1 h
          obtain ⟨ht, he⟩ := scalar_eq_ok_iff.1 h
          rw [he]
          exact ⟨_, .string hread, ht⟩
        · split at h
          · rename_i hfirst
            obtain ⟨d, rest, hread, h⟩ := ofScan_bind_eq_ok_iff.1 h
            obtain ⟨ht, he⟩ := scalar_eq_ok_iff.1 h
            rw [he]
            exact ⟨_, .number hfirst hread, ht⟩
          · cases h
  · intro h
    obtain ⟨v, hat, hscalar⟩ := h
    unfold atom
    cases hat with
    | null =>
      exact scalar_eq_ok_iff.2 ⟨hscalar, rfl⟩
    | false =>
      exact scalar_eq_ok_iff.2 ⟨hscalar, rfl⟩
    | true =>
      exact scalar_eq_ok_iff.2 ⟨hscalar, rfl⟩
    | string hread =>
      obtain ⟨tail, rfl⟩ := StringLiteral.head_of_read hread
      obtain ⟨hnull, hfalse, htrue⟩ := afterWord?_cons_eq_none tail (.inl rfl)
      simp only [hnull, hfalse, htrue, if_true]
      exact ofScan_bind_eq_ok_iff.2 ⟨_, _, hread, scalar_eq_ok_iff.2 ⟨hscalar, rfl⟩⟩
    | number hfirst hread =>
      rename_i first tail d
      obtain ⟨hnull, hfalse, htrue⟩ := afterWord?_cons_eq_none tail (.inr hfirst)
      have hquote : first ≠ quote := by
        intro heq
        subst heq
        revert hfirst
        decide
      simp only [hnull, hfalse, htrue, if_neg hquote, if_pos hfirst]
      exact ofScan_bind_eq_ok_iff.2 ⟨_, _, hread, scalar_eq_ok_iff.2 ⟨hscalar, rfl⟩⟩

/-- Whatever the builder is, the front of a text is one scalar or one fault. -/
theorem atom_cases (text : List UInt8) :
    (∃ v rest, ∀ {σ ν κ : Type} (b : Builder σ ν κ) (s : σ),
      atom b ⟨text, s⟩ = scalar b text v ⟨rest, s⟩) ∨
    ∃ fault rest, ∀ {σ ν κ : Type} (b : Builder σ ν κ) (s : σ),
      atom b ⟨text, s⟩ = .error (fault, ⟨rest, s⟩) := by
  cases hnull : afterWord? "null" text with
  | some rest => exact .inl ⟨.null, rest, fun b s => by simp only [atom, hnull]⟩
  | none =>
    cases hfalse : afterWord? "false" text with
    | some rest => exact .inl ⟨.bool false, rest, fun b s => by simp only [atom, hnull, hfalse]⟩
    | none =>
      cases htrue : afterWord? "true" text with
      | some rest =>
        exact .inl ⟨.bool true, rest, fun b s => by simp only [atom, hnull, hfalse, htrue]⟩
      | none =>
        cases text with
        | nil => exact .inr ⟨.unexpectedEnd, [], fun b s => rfl⟩
        | cons first tail =>
          simp only [atom, hnull, hfalse, htrue]
          split
          · cases StringLiteral.read (first :: tail) with
            | ok p => exact .inl ⟨.string p.1, p.2, fun b s => rfl⟩
            | error e => exact .inr ⟨e.1, e.2, fun b s => rfl⟩
          · split
            · cases NumberLiteral.read (first :: tail) with
              | ok p => exact .inl ⟨.number (.ofDouble p.1), p.2, fun b s => rfl⟩
              | error e => exact .inr ⟨e.1, e.2, fun b s => rfl⟩
            · exact .inr ⟨.unexpectedCharacter, first :: tail, fun b s => rfl⟩

/-! ## Containers -/

theorem separated_of_error {item : Reader σ ν} {commas : Nat} {children : κ} {c c' : Cursor σ}
    {fault : ReadFault} (h : item c = .error (fault, c')) :
    separated b item commas children c =
      .error (fault, ⟨c'.rest, b.abandon children c'.state⟩) := by
  rw [separated.eq_def, h]

/-- Behind an item more items follow only if there is a comma. -/
theorem separated_of_ok {item : Reader σ ν} {commas : Nat} {children : κ} {c c' : Cursor σ}
    {node : ν} (h : item c = .ok (node, c')) :
    separated b item commas children c =
      match commas, afterByte? comma (skipBlanks c'.rest) with
      | n + 1, some rest =>
        separated b item n (b.push children node c'.state).1
          ⟨skipBlanks rest, (b.push children node c'.state).2⟩
      | _, _ =>
        .ok ((b.push children node c'.state).1,
          ⟨skipBlanks c'.rest, (b.push children node c'.state).2⟩) := by
  rw [separated.eq_def, h]
  rfl

/-- One turn of the loop over items: the item is the last, or a comma and more items follow. -/
theorem separated_eq_ok_iff {item : Reader σ ν} {commas : Nat} {children children' : κ}
    {c c' : Cursor σ} :
    separated b item commas children c = .ok (children', c') ↔
      ∃ node after, item c = .ok (node, after) ∧
        ((children' = (b.push children node after.state).1 ∧
            c' = ⟨skipBlanks after.rest, (b.push children node after.state).2⟩ ∧
            (commas = 0 ∨ (skipBlanks after.rest).head? ≠ some comma)) ∨
          ∃ n rest, commas = n + 1 ∧ skipBlanks after.rest = comma :: rest ∧
            separated b item n (b.push children node after.state).1
              ⟨skipBlanks rest, (b.push children node after.state).2⟩ = .ok (children', c')) := by
  rw [separated.eq_def]
  cases hitem : item c with
  | error e => simp
  | ok p =>
    obtain ⟨node, after⟩ := p
    cases commas with
    | zero =>
      simp only [Cursor.skipBlanks]
      constructor
      · intro h
        cases h
        exact ⟨node, after, rfl, .inl ⟨rfl, rfl, .inl trivial⟩⟩
      · intro h
        obtain ⟨_, _, hok, ⟨rfl, rfl, -⟩ | ⟨n, rest, h, -⟩⟩ := h
        · cases hok
          rfl
        · cases h
    | succ n =>
      cases hcomma : afterByte? comma (skipBlanks after.rest) with
      | none =>
        have hhead := afterByte?_eq_none_iff.1 hcomma
        simp only [Cursor.skipBlanks, hcomma]
        constructor
        · intro h
          cases h
          exact ⟨node, after, rfl, .inl ⟨rfl, rfl, .inr hhead⟩⟩
        · intro h
          obtain ⟨_, _, hok, ⟨rfl, rfl, -⟩ | ⟨m, rest, -, hrest, -⟩⟩ := h
          · cases hok
            rfl
          · cases hok
            rw [hrest] at hhead
            exact absurd rfl hhead
      | some rest =>
        have hrest := afterByte?_eq_some_iff.1 hcomma
        simp only [Cursor.skipBlanks, hcomma]
        constructor
        · intro h
          exact ⟨node, after, rfl, .inr ⟨n, rest, rfl, hrest, h⟩⟩
        · intro h
          obtain ⟨_, _, hok, ⟨-, -, hlast⟩ | ⟨m, rest', hm, hrest', h⟩⟩ := h
          · cases hok
            rw [hrest] at hlast
            simp at hlast
          · cases hok
            cases hm
            rw [hrest] at hrest'
            cases hrest'
            exact h

theorem closing_eq_ok_iff {close : UInt8} {unterminated : ReadFault}
    {take : κ → σ → Option (ν × σ)} {start : List UInt8} {children : κ} {c c' : Cursor σ}
    {node : ν} :
    closing b close unterminated take start children c = .ok (node, c') ↔
      c.rest = close :: c'.rest ∧ take children c.state = some (node, c'.state) := by
  obtain ⟨rest', state'⟩ := c'
  unfold closing
  constructor
  · intro h
    split at h
    · cases h
    · rename_i rest hrest
      split at h
      · cases h
      · rename_i n s htake
        cases h
        exact ⟨afterByte?_eq_some_iff.1 hrest, htake⟩
  · intro h
    obtain ⟨hrest, htake⟩ := h
    simp only [afterByte?_eq_some_iff.2 hrest, htake]

theorem container_of_closed {limits : ReadLimits} {close : UInt8} {unterminated : ReadFault}
    {take : κ → σ → Option (ν × σ)} {item : Reader σ ν} {start : List UInt8} {c : Cursor σ}
    (h : (afterByte? close (skipBlanks c.rest)).isSome = true) :
    container b limits close unterminated take item start c =
      closing b close unterminated take start b.childless c.skipBlanks :=
  if_pos h

theorem container_of_open {limits : ReadLimits} {close : UInt8} {unterminated : ReadFault}
    {take : κ → σ → Option (ν × σ)} {item : Reader σ ν} {start : List UInt8} {c : Cursor σ}
    (h : ¬ (afterByte? close (skipBlanks c.rest)).isSome = true) :
    container b limits close unterminated take item start c =
      (separated b item limits.maxCommas b.childless c.skipBlanks >>= fun p =>
        closing b close unterminated take start p.1 p.2) :=
  if_neg h

/-- A container is read if it closes at once, or behind its items. -/
theorem container_eq_ok_iff {limits : ReadLimits} {close : UInt8} {unterminated : ReadFault}
    {take : κ → σ → Option (ν × σ)} {item : Reader σ ν} {start : List UInt8} {c c' : Cursor σ}
    {node : ν} :
    container b limits close unterminated take item start c = .ok (node, c') ↔
      (skipBlanks c.rest = close :: c'.rest ∧ take b.childless c.state = some (node, c'.state)) ∨
      ((skipBlanks c.rest).head? ≠ some close ∧
        ∃ children inside,
          separated b item limits.maxCommas b.childless c.skipBlanks = .ok (children, inside) ∧
          inside.rest = close :: c'.rest ∧
          take children inside.state = some (node, c'.state)) := by
  cases h : afterByte? close c.skipBlanks.rest with
  | some rest =>
    have hrest : skipBlanks c.rest = close :: rest := afterByte?_eq_some_iff.1 h
    simp only [container, h, Option.isSome_some, if_true]
    rw [closing_eq_ok_iff]
    constructor
    · intro h
      obtain ⟨hclose, htake⟩ := h
      exact .inl ⟨hclose, htake⟩
    · intro h
      rcases h with ⟨hclose, htake⟩ | ⟨hne, -⟩
      · exact ⟨hclose, htake⟩
      · rw [hrest] at hne
        exact absurd rfl hne
  | none =>
    have hne : (skipBlanks c.rest).head? ≠ some close := afterByte?_eq_none_iff.1 h
    simp only [container, h, Option.isSome_none, Bool.false_eq_true, if_false]
    rw [bind_eq_ok_iff]
    constructor
    · intro h
      obtain ⟨⟨children, inside⟩, hitems, hclosing⟩ := h
      obtain ⟨hclose, htake⟩ := closing_eq_ok_iff.1 hclosing
      exact .inr ⟨hne, children, inside, hitems, hclose, htake⟩
    · intro h
      rcases h with ⟨hclose, -⟩ | ⟨-, children, inside, hitems, hclose, htake⟩
      · rw [hclose] at hne
        exact absurd rfl hne
      · exact ⟨(children, inside), hitems, closing_eq_ok_iff.2 ⟨hclose, htake⟩⟩

/-- A member is read if it is a name, a colon and a value. -/
theorem member_eq_ok_iff {value : Reader σ ν} {c c' : Cursor σ} {node : ν} :
    member b value c = .ok (node, c') ↔
      ∃ name rest rest' n after, StringLiteral.read c.rest = .ok (name, rest) ∧
        skipBlanks rest = colon :: rest' ∧
        value ⟨skipBlanks rest', c.state⟩ = .ok (n, after) ∧
        node = (b.rename name n after.state).1 ∧
        c' = ⟨after.rest, (b.rename name n after.state).2⟩ := by
  unfold member
  constructor
  · intro h
    split at h
    · cases h
    · obtain ⟨name, rest, hread, h⟩ := ofScan_bind_eq_ok_iff.1 h
      simp only [Cursor.skipBlanks] at h
      split at h
      · cases h
      · rename_i rest' hcolon
        obtain ⟨⟨n, after⟩, hvalue, h⟩ := bind_eq_ok_iff.1 h
        cases h
        exact ⟨name, rest, rest', n, after, hread, afterByte?_eq_some_iff.1 hcolon, hvalue, rfl, rfl⟩
  · intro h
    obtain ⟨name, rest, rest', n, after, hread, hcolon, hvalue, rfl, rfl⟩ := h
    obtain ⟨tail, htail⟩ := StringLiteral.head_of_read hread
    have hquote : afterByte? quote c.rest = some tail := afterByte?_eq_some_iff.2 htail
    rw [hquote]
    refine ofScan_bind_eq_ok_iff.2 ⟨name, rest, hread, ?_⟩
    simp only [Cursor.skipBlanks, afterByte?_eq_some_iff.2 hcolon]
    exact bind_eq_ok_iff.2 ⟨(n, after), hvalue, rfl⟩

/-! ## Values -/

/-- A value is an array, an object or a scalar; containers need a level. -/
theorem value_eq_ok_iff {limits : ReadLimits} {levels : Nat} {c : Cursor σ} {r : ν × Cursor σ} :
    value b limits levels c = .ok r ↔
      (∃ n rest, levels = n + 1 ∧ c.rest = openBracket :: rest ∧
        container b limits closeBracket .unterminatedArray b.array (value b limits n) c.rest
          ⟨rest, c.state⟩ = .ok r) ∨
      (∃ n rest, levels = n + 1 ∧ c.rest = openBrace :: rest ∧
        container b limits closeBrace .unterminatedObject b.object
          (member b (value b limits n)) c.rest ⟨rest, c.state⟩ = .ok r) ∨
      (c.rest.head? ≠ some openBracket ∧ c.rest.head? ≠ some openBrace ∧ atom b c = .ok r) := by
  have hopen : openBracket ≠ openBrace := by decide
  obtain ⟨text, state⟩ := c
  cases harray : afterByte? openBracket text with
  | some rest =>
    cases afterByte?_eq_some_iff.1 harray
    cases levels <;> simp [value, valueWith, harray, hopen]
  | none =>
    have hne := afterByte?_eq_none_iff.1 harray
    have hne' : ∀ rest, text ≠ openBracket :: rest := by
      intro rest heq
      subst heq
      exact hne rfl
    cases hobject : afterByte? openBrace text with
    | some rest =>
      cases afterByte?_eq_some_iff.1 hobject
      cases levels <;> simp [value, valueWith, harray, hobject, hopen.symm]
    | none =>
      have hno := afterByte?_eq_none_iff.1 hobject
      have hno' : ∀ rest, text ≠ openBrace :: rest := by
        intro rest heq
        subst heq
        exact hno rfl
      cases levels <;> simp [value, valueWith, harray, hobject, hne, hno, hne', hno']

/-- No container begins where a scalar stands. -/
theorem AtomAt.head_ne {text rest : List UInt8} {v : Scalar} (h : AtomAt text v rest) :
    text.head? ≠ some openBracket ∧ text.head? ≠ some openBrace := by
  have key : ∀ (first : UInt8) (tail : List UInt8), first ≠ openBracket → first ≠ openBrace →
      (first :: tail).head? ≠ some openBracket ∧ (first :: tail).head? ≠ some openBrace := by
    intro first tail harray hobject
    exact ⟨fun e => harray (Option.some.inj e), fun e => hobject (Option.some.inj e)⟩
  cases h with
  | null => exact key 0x6e _ (by decide) (by decide)
  | false => exact key 0x66 _ (by decide) (by decide)
  | true => exact key 0x74 _ (by decide) (by decide)
  | string hread =>
    obtain ⟨inner, rfl⟩ := StringLiteral.head_of_read hread
    exact key quote inner (by decide) (by decide)
  | number hfirst =>
    refine key _ _ ?_ ?_
    all_goals
      intro heq
      subst heq
      exact absurd hfirst (by decide)

theorem value_of_atomAt {limits : ReadLimits} {levels : Nat} {c c' : Cursor σ} {v : Scalar}
    {node : ν} (h : AtomAt c.rest v c'.rest) (hscalar : b.scalar v c.state = some (node, c'.state)) :
    value b limits levels c = .ok (node, c') := by
  obtain ⟨harray, hobject⟩ := h.head_ne
  exact value_eq_ok_iff.2 (.inr (.inr ⟨harray, hobject, atom_eq_ok_iff.2 ⟨v, h, hscalar⟩⟩))

end LinkedJson.Reading
