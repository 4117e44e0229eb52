import LinkedJson.Proofs.Reading.Steps

/-!
# Readings over two builders

The reader looks at the text alone, so two builders that refuse no nodes go through it in the same
way: they end at the same place, or fail with the same fault. `Builder.Mirrors` says of their steps
that what the first one takes stands for what the second one builds, in states that are `Ready` to
give more nodes; then so does what is read (`Builder.read_alike`).
-/

namespace LinkedJson

/-- The steps of two builders that refuse nothing. `Done s t n n'` says that `t` is `s` with the
node `n` taken, which stands for `n'`; `Open s t k k'` says so of the children of an open
container. -/
structure Builder.Mirrors {σ ν κ σ' ν' κ' : Type} (b : Builder σ ν κ) (b' : Builder σ' ν' κ')
    (Ready : σ → Prop) (Done : σ → σ → ν → ν' → Prop) (Open : σ → σ → κ → κ' → Prop) : Prop where
  ready_of_open : ∀ {s t k k'}, Ready s → Open s t k k' → Ready t
  scalar : ∀ {s} v s', Ready s →
    ∃ n t n' t', b.scalar v s = some (n, t) ∧ b'.scalar v s' = some (n', t') ∧ Done s t n n'
  childless : ∀ {s}, Ready s → Open s s b.childless b'.childless
  push : ∀ {s t u k k' n n'} u', Open s t k k' → Done t u n n' →
    Open s (b.push k n u).2 (b.push k n u).1 (b'.push k' n' u').1
  rename : ∀ {s t n n'} name t', Done s t n n' →
    Done s (b.rename name n t).2 (b.rename name n t).1 (b'.rename name n' t').1
  array : ∀ {s t k k'} t', Ready t → Open s t k k' →
    ∃ n u n' u', b.array k t = some (n, u) ∧ b'.array k' t' = some (n', u') ∧ Done s u n n'
  object : ∀ {s t k k'} t', Ready t → Open s t k k' →
    ∃ n u n' u', b.object k t = some (n, u) ∧ b'.object k' t' = some (n', u') ∧ Done s u n n'

namespace Reading

open Ascii

variable {σ ν κ σ' ν' κ' : Type} {b : Builder σ ν κ} {b' : Builder σ' ν' κ'}
  {Ready : σ → Prop} {Done : σ → σ → ν → ν' → Prop} {Open : σ → σ → κ → κ' → Prop}

/-- Two readings end at the same place with results that are related, or fail with the same fault at
the same place. -/
inductive Alike {α α' : Type} (Related : σ → α → α' → Prop) :
    Reading σ (α × Cursor σ) → Reading σ' (α' × Cursor σ') → Prop
  | read {rest : List UInt8} {s : σ} {s' : σ'} {a : α} {a' : α'} :
      Related s a a' → Alike Related (.ok (a, ⟨rest, s⟩)) (.ok (a', ⟨rest, s'⟩))
  | failed {fault : ReadFault} {rest : List UInt8} {s : σ} {s' : σ'} :
      Alike Related (.error (fault, ⟨rest, s⟩)) (.error (fault, ⟨rest, s'⟩))

/-- The readers end alike wherever they begin in a state that is ready. -/
def Parallel (Ready : σ → Prop) (Done : σ → σ → ν → ν' → Prop) (read : Reader σ ν)
    (read' : Reader σ' ν') : Prop :=
  ∀ (rest : List UInt8) {s : σ} (s' : σ'), Ready s →
    Alike (Done s) (read ⟨rest, s⟩) (read' ⟨rest, s'⟩)

section

variable (laws : b.Mirrors b' Ready Done Open)
include laws

theorem scalar_alike (start : List UInt8) (v : Scalar) :
    Parallel Ready Done (scalar b start v) (scalar b' start v) := by
  intro rest s s' hready
  obtain ⟨n, t, n', t', h, h', hdone⟩ := laws.scalar v s' hready
  simp only [scalar, h, h']
  exact .read hdone

theorem atom_alike : Parallel Ready Done (atom b) (atom b') := by
  intro text s s' hready
  rcases atom_cases text with ⟨v, rest, h⟩ | ⟨fault, rest, h⟩
  · rw [h, h]
    exact scalar_alike laws text v rest s' hready
  · rw [h, h]
    exact .failed

theorem separated_alike {item : Reader σ ν} {item' : Reader σ' ν'}
    (hitem : Parallel Ready Done item item') (commas : Nat) (rest : List UInt8) {children : κ}
    {children' : κ'} {s t : σ} (t' : σ') (hready : Ready s) (hopen : Open s t children children') :
    Alike (Open s) (separated b item commas children ⟨rest, t⟩)
      (separated b' item' commas children' ⟨rest, t'⟩) := by
  have hstep := hitem rest t' (laws.ready_of_open hready hopen)
  generalize hread : item ⟨rest, t⟩ = reading at hstep
  generalize hread' : item' ⟨rest, t'⟩ = reading' at hstep
  cases hstep with
  | @read after u u' n n' hdone =>
    have hpush := laws.push u' hopen hdone
    rw [separated_of_ok hread, separated_of_ok hread']
    cases commas with
    | zero => exact .read hpush
    | succ commas =>
      cases afterByte? comma (skipBlanks after) with
      | none => exact .read hpush
      | some rest => exact separated_alike hitem commas (skipBlanks rest) _ hready hpush
  | failed =>
    rw [separated_of_error hread, separated_of_error hread']
    exact .failed

theorem closing_alike {close : UInt8} {unterminated : ReadFault} {take : κ → σ → Option (ν × σ)}
    {take' : κ' → σ' → Option (ν' × σ')}
    (htake : ∀ {s t k k'} t', Ready t → Open s t k k' →
      ∃ n u n' u', take k t = some (n, u) ∧ take' k' t' = some (n', u') ∧ Done s u n n')
    (start rest : List UInt8) {children : κ} {children' : κ'} {s t : σ} (t' : σ') (hready : Ready s)
    (hopen : Open s t children children') :
    Alike (Done s) (closing b close unterminated take start children ⟨rest, t⟩)
      (closing b' close unterminated take' start children' ⟨rest, t'⟩) := by
  obtain ⟨n, u, n', u', h, h', hdone⟩ := htake t' (laws.ready_of_open hready hopen) hopen
  unfold closing
  cases afterByte? close rest with
  | none => exact .failed
  | some rest =>
    simp only [h, h']
    exact .read hdone

theorem container_alike {limits : ReadLimits} {close : UInt8} {unterminated : ReadFault}
    {take : κ → σ → Option (ν × σ)} {take' : κ' → σ' → Option (ν' × σ')}
    (htake : ∀ {s t k k'} t', Ready t → Open s t k k' →
      ∃ n u n' u', take k t = some (n, u) ∧ take' k' t' = some (n', u') ∧ Done s u n n')
    {item : Reader σ ν} {item' : Reader σ' ν'} (hitem : Parallel Ready Done item item')
    (start : List UInt8) :
    Parallel Ready Done (container b limits close unterminated take item start)
      (container b' limits close unterminated take' item' start) := by
  intro rest s s' hready
  have hchildless := laws.childless hready
  by_cases hclose : (afterByte? close (skipBlanks rest)).isSome = true
  · rw [container_of_closed hclose, container_of_closed hclose]
    exact closing_alike laws htake start (skipBlanks rest) s' hready hchildless
  · have hitems := separated_alike laws hitem limits.maxCommas (skipBlanks rest) s' hready
      hchildless
    rw [container_of_open hclose, container_of_open hclose]
    change Alike _ (separated b item limits.maxCommas b.childless ⟨skipBlanks rest, s⟩ >>= _)
      (separated b' item' limits.maxCommas b'.childless ⟨skipBlanks rest, s'⟩ >>= _)
    generalize separated b item limits.maxCommas b.childless ⟨skipBlanks rest, s⟩ = reading
      at hitems ⊢
    generalize separated b' item' limits.maxCommas b'.childless ⟨skipBlanks rest, s'⟩ = reading'
      at hitems ⊢
    cases hitems with
    | @read after t t' k k' hopen => exact closing_alike laws htake start after t' hready hopen
    | failed => exact .failed

theorem member_alike {read : Reader σ ν} {read' : Reader σ' ν'}
    (hvalue : Parallel Ready Done read read') :
    Parallel Ready Done (member b read) (member b' read') := by
  intro rest s s' hready
  unfold member
  simp only
  cases (afterByte? quote rest).isNone with
  | true => exact .failed
  | false =>
    cases StringLiteral.read rest with
    | error e => exact .failed
    | ok p =>
      simp only [ofScan, Cursor.skipBlanks, bind, Except.bind, Bool.false_eq_true, if_false]
      cases afterByte? colon (skipBlanks p.2) with
      | none => exact .failed
      | some rest =>
        have hstep := hvalue (skipBlanks rest) s' hready
        simp only
        generalize read ⟨skipBlanks rest, s⟩ = reading at hstep ⊢
        generalize read' ⟨skipBlanks rest, s'⟩ = reading' at hstep ⊢
        cases hstep with
        | @read after t t' n n' hdone => exact .read (laws.rename p.1 t' hdone)
        | failed => exact .failed

theorem valueWith_alike (limits : ReadLimits) (inner : Option (Reader σ ν × Reader σ' ν'))
    (hinner : ∀ p ∈ inner, Parallel Ready Done p.1 p.2) :
    Parallel Ready Done (valueWith b limits (inner.map Prod.fst))
      (valueWith b' limits (inner.map Prod.snd)) := by
  intro rest s s' hready
  unfold valueWith
  simp only
  cases afterByte? openBracket rest with
  | some inside =>
    cases inner with
    | none => exact .failed
    | some p => exact container_alike laws laws.array (hinner p rfl) rest inside s' hready
  | none =>
    cases afterByte? openBrace rest with
    | some inside =>
      cases inner with
      | none => exact .failed
      | some p =>
        exact container_alike laws laws.object (member_alike laws (hinner p rfl)) rest inside s'
          hready
    | none => exact atom_alike laws rest s' hready

theorem value_alike (limits : ReadLimits) (levels : Nat) :
    Parallel Ready Done (value b limits levels) (value b' limits levels) := by
  induction levels with
  | zero => exact valueWith_alike laws limits none fun p h => nomatch h
  | succ levels ih =>
    refine valueWith_alike laws limits (some (_, _)) fun p h => ?_
    cases h
    exact ih

theorem document_alike (limits : ReadLimits) (whole : Bool) (text : List UInt8) {s : σ} (s' : σ')
    (hready : Ready s) :
    Alike (Done s) (document b limits whole text s) (document b' limits whole text s') := by
  have hvalue := value_alike laws limits limits.maxDepth.toNat (skipBlanks text) s' hready
  unfold document
  simp only [Cursor.skipBlanks]
  generalize value b limits limits.maxDepth.toNat ⟨skipBlanks text, s⟩ = reading at hvalue ⊢
  generalize value b' limits limits.maxDepth.toNat ⟨skipBlanks text, s'⟩ = reading' at hvalue ⊢
  cases hvalue with
  | failed => exact .failed
  | @read rest t t' n n' hdone =>
    cases whole with
    | false => exact .read hdone
    | true =>
      simp only [bind, Except.bind, if_true]
      by_cases hrest : skipBlanks rest = []
      · simp only [hrest, List.isEmpty_nil, if_true]
        exact .read hdone
      · simp only [List.isEmpty_iff, hrest, if_false]
        exact .failed

end

end Reading

/-- Documents read over the two builders are related and end at the same offset, or they are not
read for the same reason. -/
theorem Builder.read_alike {σ ν κ σ' ν' κ' : Type} {b : Builder σ ν κ} {b' : Builder σ' ν' κ'}
    {Ready : σ → Prop} {Done : σ → σ → ν → ν' → Prop} {Open : σ → σ → κ → κ' → Prop}
    (laws : b.Mirrors b' Ready Done Open) (options : ReadOptions) (bytes : List UInt8) {s : σ}
    (s' : σ') (hready : Ready s) :
    (∃ n n' stop t t', b.read options bytes s = (.ok (n, stop), t) ∧
        b'.read options bytes s' = (.ok (n', stop), t') ∧ Done s t n n') ∨
      ∃ e t t', b.read options bytes s = (.error e, t) ∧
        b'.read options bytes s' = (.error e, t') := by
  unfold Builder.read
  cases bytes.isEmpty with
  | true => exact .inr ⟨_, _, _, rfl, rfl⟩
  | false =>
    cases options.tooLong bytes with
    | some fault => exact .inr ⟨_, _, _, rfl, rfl⟩
    | none =>
      have hdocument := Reading.document_alike laws ⟨options.maxDepth, (content bytes).length⟩
        options.whole (content bytes) s' hready
      simp only [Bool.false_eq_true, if_false]
      generalize Reading.document b ⟨options.maxDepth, (content bytes).length⟩ options.whole
        (content bytes) s = reading at hdocument ⊢
      generalize Reading.document b' ⟨options.maxDepth, (content bytes).length⟩ options.whole
        (content bytes) s' = reading' at hdocument ⊢
      cases hdocument with
      | read hdone => exact .inl ⟨_, _, _, _, _, rfl, rfl, hdone⟩
      | failed => exact .inr ⟨_, _, _, rfl, rfl⟩

end LinkedJson
