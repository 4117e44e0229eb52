import LinkedJson.Proofs.Reading.Steps

/-!
# What reading does to the state of a builder

Reading ends in one of two ways, and each way through the reader combines the same few steps of its
builder. `Builder.Effects` says of each step how it changes the state: `Done s s' n` when `s'` is
`s` with a node `n` taken, `Open s s' k` when it is `s` with the children `k` of an open container
taken, and `Undone s s'` when whatever was taken since `s` is given back. Then every reader ends in
`Done` or in `Undone` (`value_leads`), and so does the reading of a document
(`Builder.read_effect`).
-/

namespace LinkedJson

/-- The laws of a builder that gives back what it took when a reading fails. -/
structure Builder.Effects {σ ν κ : Type} (b : Builder σ ν κ) (Done : σ → σ → ν → Prop)
    (Open : σ → σ → κ → Prop) (Undone : σ → σ → Prop) : Prop where
  refl : ∀ s, Undone s s
  scalar : ∀ {v s n s'}, b.scalar v s = some (n, s') → Done s s' n
  childless : ∀ s, Open s s b.childless
  push : ∀ {s s₁ s₂ k n}, Open s s₁ k → Done s₁ s₂ n → Open s (b.push k n s₂).2 (b.push k n s₂).1
  rename : ∀ {s s₁ n} (name), Done s s₁ n → Done s (b.rename name n s₁).2 (b.rename name n s₁).1
  array : ∀ {s s₁ k n s₂}, Open s s₁ k → b.array k s₁ = some (n, s₂) → Done s s₂ n
  object : ∀ {s s₁ k n s₂}, Open s s₁ k → b.object k s₁ = some (n, s₂) → Done s s₂ n
  abandon : ∀ {s s₁ s₂ k}, Open s s₁ k → Undone s₁ s₂ → Undone s (b.abandon k s₂)
  discard : ∀ {s s₁ n}, Done s s₁ n → Undone s (b.discard n s₁)

namespace Reading

open Ascii

variable {σ ν κ : Type} {b : Builder σ ν κ} {Done : σ → σ → ν → Prop} {Open : σ → σ → κ → Prop}
  {Undone : σ → σ → Prop}

/-- The outcome of a reading that began in a state. -/
def Outcome {α : Type} (s : σ) (Done : σ → σ → α → Prop) (Undone : σ → σ → Prop) :
    Reading σ (α × Cursor σ) → Prop
  | .ok (a, c) => Done s c.state a
  | .error (_, c) => Undone s c.state

/-- The reader ends in one of the two ways wherever it begins. -/
def Leads {α : Type} (read : Reader σ α) (Done : σ → σ → α → Prop) (Undone : σ → σ → Prop) : Prop :=
  ∀ c, Outcome c.state Done Undone (read c)

section

variable (laws : b.Effects Done Open Undone)
include laws

theorem scalar_leads (start : List UInt8) (v : Scalar) :
    Leads (scalar b start v) Done Undone := by
  intro c
  unfold scalar
  split
  · exact laws.refl c.state
  · rename_i h
    exact laws.scalar h

theorem atom_leads : Leads (atom b) Done Undone := by
  intro c
  rcases atom_cases c.rest with ⟨v, rest, h⟩ | ⟨fault, rest, h⟩
  · change Outcome c.state Done Undone (atom b ⟨c.rest, c.state⟩)
    rw [h]
    exact scalar_leads laws c.rest v ⟨rest, c.state⟩
  · change Outcome c.state Done Undone (atom b ⟨c.rest, c.state⟩)
    rw [h]
    exact laws.refl c.state

theorem separated_leads {item : Reader σ ν} (hitem : Leads item Done Undone) {commas : Nat}
    {children : κ} {s : σ} {c : Cursor σ} (hopen : Open s c.state children) :
    Outcome s Open Undone (separated b item commas children c) := by
  induction commas generalizing children c with
  | zero =>
    have hstep := hitem c
    cases h : item c with
    | error e =>
      rw [h] at hstep
      rw [separated_of_error h]
      exact laws.abandon hopen hstep
    | ok p =>
      rw [h] at hstep
      rw [separated_of_ok h]
      exact laws.push hopen hstep
  | succ commas ih =>
    have hstep := hitem c
    cases h : item c with
    | error e =>
      rw [h] at hstep
      rw [separated_of_error h]
      exact laws.abandon hopen hstep
    | ok p =>
      rw [h] at hstep
      rw [separated_of_ok h]
      have hpush := laws.push hopen hstep
      cases afterByte? comma (skipBlanks p.2.rest) with
      | none => exact hpush
      | some rest => exact ih (c := ⟨skipBlanks rest, _⟩) hpush

theorem closing_leads {close : UInt8} {unterminated : ReadFault} {take : κ → σ → Option (ν × σ)}
    (htake : ∀ {s s₁ k n s₂}, Open s s₁ k → take k s₁ = some (n, s₂) → Done s s₂ n)
    (start : List UInt8) {children : κ} {s : σ} {c : Cursor σ} (hopen : Open s c.state children) :
    Outcome s Done Undone (closing b close unterminated take start children c) := by
  unfold closing
  split
  · exact laws.abandon hopen (laws.refl _)
  · split
    · exact laws.abandon hopen (laws.refl _)
    · rename_i h
      exact htake hopen h

theorem container_leads {limits : ReadLimits} {close : UInt8} {unterminated : ReadFault}
    {take : κ → σ → Option (ν × σ)}
    (htake : ∀ {s s₁ k n s₂}, Open s s₁ k → take k s₁ = some (n, s₂) → Done s s₂ n)
    {item : Reader σ ν} (hitem : Leads item Done Undone) (start : List UInt8) :
    Leads (container b limits close unterminated take item start) Done Undone := by
  intro c
  have hchildless := laws.childless c.state
  unfold container
  simp only
  split
  · exact closing_leads laws htake start (c := c.skipBlanks) hchildless
  · have hitems : Outcome c.state Open Undone
        (separated b item limits.maxCommas b.childless c.skipBlanks) :=
      separated_leads laws hitem hchildless
    cases h : separated b item limits.maxCommas b.childless c.skipBlanks with
    | error e =>
      rw [h] at hitems
      exact hitems
    | ok p =>
      rw [h] at hitems
      exact closing_leads laws htake start hitems

theorem member_leads {value : Reader σ ν} (hvalue : Leads value Done Undone) :
    Leads (member b value) Done Undone := by
  intro c
  unfold member
  split
  · exact laws.refl c.state
  · cases StringLiteral.read c.rest with
    | error e => exact laws.refl c.state
    | ok p =>
      simp only [ofScan, Cursor.skipBlanks, bind, Except.bind]
      split
      · exact laws.refl c.state
      · rename_i rest hcolon
        have hstep := hvalue ⟨skipBlanks rest, c.state⟩
        cases h : value ⟨skipBlanks rest, c.state⟩ with
        | error e =>
          rw [h] at hstep
          exact hstep
        | ok p =>
          rw [h] at hstep
          exact laws.rename _ hstep

theorem valueWith_leads {limits : ReadLimits} {inner : Option (Reader σ ν)}
    (hinner : ∀ read ∈ inner, Leads read Done Undone) :
    Leads (valueWith b limits inner) Done Undone := by
  intro c
  unfold valueWith
  split
  · exact atom_leads laws c
  · exact laws.refl c.state
  · rename_i rest inner _
    exact container_leads laws laws.array (hinner inner rfl) c.rest { c with rest }
  · rename_i rest inner _ _
    exact container_leads laws laws.object (member_leads laws (hinner inner rfl)) c.rest
      { c with rest }

theorem value_leads (limits : ReadLimits) (levels : Nat) :
    Leads (value b limits levels) Done Undone := by
  induction levels with
  | zero => exact valueWith_leads laws fun read h => nomatch h
  | succ levels ih =>
    refine valueWith_leads laws fun read h => ?_
    cases h
    exact ih

theorem document_leads (limits : ReadLimits) (whole : Bool) (text : List UInt8) (s : σ) :
    Outcome s Done Undone (document b limits whole text s) := by
  have hvalue := value_leads laws limits limits.maxDepth.toNat (Cursor.skipBlanks ⟨text, s⟩)
  unfold document
  cases h : value b limits limits.maxDepth.toNat (Cursor.skipBlanks ⟨text, s⟩) with
  | error e =>
    rw [h] at hvalue
    exact hvalue
  | ok p =>
    rw [h] at hvalue
    simp only [bind, Except.bind]
    split
    · split
      · exact hvalue
      · exact laws.discard hvalue
    · exact hvalue

end

end Reading

/-- A document is read, or everything that was taken for it is given back. -/
theorem Builder.read_effect {σ ν κ : Type} {b : Builder σ ν κ} {Done : σ → σ → ν → Prop}
    {Open : σ → σ → κ → Prop} {Undone : σ → σ → Prop} (laws : b.Effects Done Open Undone)
    (options : ReadOptions) (bytes : List UInt8) (s : σ) :
    (∀ n stop t, b.read options bytes s = (.ok (n, stop), t) → Done s t n) ∧
      ∀ e t, b.read options bytes s = (.error e, t) → Undone s t := by
  have failed : ∀ {e : ReadFailure} {t : σ}, Undone s t →
      (∀ n stop u, ((.error e, t) : Except ReadFailure (ν × Nat) × σ) = (.ok (n, stop), u) →
        Done s u n) ∧
      ∀ e' u, ((.error e, t) : Except ReadFailure (ν × Nat) × σ) = (.error e', u) → Undone s u := by
    intro e t ht
    constructor
    · intro n stop u h
      cases h
    · intro e' u h
      cases h
      exact ht
  unfold Builder.read
  cases bytes.isEmpty with
  | true => exact failed (laws.refl s)
  | false =>
    cases options.tooLong bytes with
    | some fault => exact failed (laws.refl s)
    | none =>
      have hdocument := Reading.document_leads laws ⟨options.maxDepth, (content bytes).length⟩
        options.whole (content bytes) s
      simp only [Bool.false_eq_true, if_false]
      cases h : Reading.document b ⟨options.maxDepth, (content bytes).length⟩ options.whole
          (content bytes) s with
      | error e =>
        rw [h] at hdocument
        exact failed hdocument
      | ok p =>
        rw [h] at hdocument
        constructor
        · intro n stop t h
          cases h
          exact hdocument
        · intro e t h
          cases h

end LinkedJson
