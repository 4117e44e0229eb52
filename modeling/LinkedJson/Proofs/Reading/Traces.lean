import LinkedJson.Proofs.Reading.Effects
import Mathlib.Data.List.Chain

/-!
# The trace of a reading

What a reading does on the way is told by a trace: which values it began, with how many containers
around each, and which states its builder went through. `Reading.tracing` reads over the same
builder and keeps the trace; without the trace it is the reading itself (`tracingDocument_forgets`).
What was begun before a fault stays in the trace, so it tells of texts that are not read as well.
-/

namespace LinkedJson

/-- A state of a builder and the trace up to it. -/
structure Traced (σ : Type) where
  state : σ
  /-- The values begun so far, each as the number of open containers around it and the text from its
  first byte on. -/
  begun : List (Nat × List UInt8)
  /-- The states so far, the first and the present one among them. -/
  states : List σ

namespace Traced

variable {σ : Type}

def start (s : σ) : Traced σ :=
  ⟨s, [], [s]⟩

/-- The builder comes to another state. -/
def move (t : Traced σ) (s : σ) : Traced σ :=
  { t with state := s, states := t.states ++ [s] }

/-- A value is begun. -/
def begin (t : Traced σ) (around : Nat) (text : List UInt8) : Traced σ :=
  { t with begun := t.begun ++ [(around, text)] }

end Traced

namespace Builder

variable {σ ν κ : Type}

/-- Builds the same nodes and keeps the states. -/
def traced (b : Builder σ ν κ) : Builder (Traced σ) ν κ where
  scalar v t := (b.scalar v t.state).map fun (n, s) => (n, t.move s)
  array k t := (b.array k t.state).map fun (n, s) => (n, t.move s)
  object k t := (b.object k t.state).map fun (n, s) => (n, t.move s)
  childless := b.childless
  push k n t := ((b.push k n t.state).1, t.move (b.push k n t.state).2)
  rename name n t := ((b.rename name n t.state).1, t.move (b.rename name n t.state).2)
  abandon k t := t.move (b.abandon k t.state)
  discard n t := t.move (b.discard n t.state)

/-- A node that is taken is taken by the builder itself. -/
theorem exists_of_map_move {x : Option (ν × σ)} {t t' : Traced σ} {node : ν}
    (h : (x.map fun (n, s) => (n, t.move s)) = some (node, t')) :
    ∃ s, x = some (node, s) ∧ t' = t.move s := by
  obtain ⟨⟨n, s⟩, hx, heq⟩ := Option.map_eq_some_iff.1 h
  cases heq
  exact ⟨s, hx, rfl⟩

/-- Taking a node begins no value. -/
theorem begun_of_map_move {x : Option (ν × σ)} {t t' : Traced σ} {node : ν}
    (h : (x.map fun (n, s) => (n, t.move s)) = some (node, t')) : t'.begun = t.begun := by
  obtain ⟨s, -, rfl⟩ := exists_of_map_move h
  rfl

/-- One step of the builder leads from a state to another. -/
inductive Moves (b : Builder σ ν κ) : σ → σ → Prop
  | scalar {v : Scalar} {s s' : σ} {n : ν} : b.scalar v s = some (n, s') → b.Moves s s'
  | array {k : κ} {s s' : σ} {n : ν} : b.array k s = some (n, s') → b.Moves s s'
  | object {k : κ} {s s' : σ} {n : ν} : b.object k s = some (n, s') → b.Moves s s'
  | push (k : κ) (n : ν) (s : σ) : b.Moves s (b.push k n s).2
  | rename (name : String) (n : ν) (s : σ) : b.Moves s (b.rename name n s).2
  | abandon (k : κ) (s : σ) : b.Moves s (b.abandon k s)
  | discard (n : ν) (s : σ) : b.Moves s (b.discard n s)

end Builder

namespace Reading

open Ascii

variable {σ ν κ α β : Type} (b : Builder σ ν κ)

/-- Begins a value at the cursor. -/
def beginning (around : Nat) (c : Cursor (Traced σ)) : Cursor (Traced σ) :=
  { c with state := c.state.begin around c.rest }

/-- Reads a value with `around` containers around it, inside of which `levels` containers may nest,
and keeps the trace. -/
def tracing (limits : ReadLimits) : (levels around : Nat) → Reader (Traced σ) ν
  | 0, around => fun c => valueWith b.traced limits none (beginning around c)
  | levels + 1, around => fun c =>
    valueWith b.traced limits (some fun c => tracing limits levels (around + 1) c)
      (beginning around c)

/-- Reads the value at the front of a text as `document` does, and keeps the trace. -/
def tracingDocument (limits : ReadLimits) (whole : Bool) (text : List UInt8) (t : Traced σ) :
    Reading (Traced σ) (ν × Cursor (Traced σ)) := do
  let (node, c) ← tracing b limits limits.maxDepth.toNat 0 (Cursor.skipBlanks ⟨text, t⟩)
  if whole then
    let c := c.skipBlanks
    if c.rest.isEmpty then .ok (node, c)
    else .error (.trailingData, { c with state := b.traced.discard node c.state })
  else .ok (node, c)

/-- The state at the end of a reading. -/
def final : Reading σ (α × Cursor σ) → σ
  | .ok (_, c) => c.state
  | .error (_, c) => c.state

/-! ## A reading without its trace -/

/-- The reading without its trace. -/
def forget : Reading (Traced σ) (α × Cursor (Traced σ)) → Reading σ (α × Cursor σ)
  | .ok (a, c) => .ok (a, ⟨c.rest, c.state.state⟩)
  | .error (fault, c) => .error (fault, ⟨c.rest, c.state.state⟩)

/-- Without its trace the reader is another one. -/
def Forgets (read' : Reader (Traced σ) α) (read : Reader σ α) : Prop :=
  ∀ c, forget (read' c) = read ⟨c.rest, c.state.state⟩

theorem forget_bind {x : Reading (Traced σ) (α × Cursor (Traced σ))}
    {f : α × Cursor (Traced σ) → Reading (Traced σ) (β × Cursor (Traced σ))}
    {g : α × Cursor σ → Reading σ (β × Cursor σ)}
    (h : ∀ a c, forget (f (a, c)) = g (a, ⟨c.rest, c.state.state⟩)) :
    forget (x >>= f) = forget x >>= g := by
  rcases x with e | ⟨a, c⟩
  · rfl
  · exact h a c

variable {b}

theorem scalar_forgets (start : List UInt8) (v : Scalar) :
    Forgets (scalar b.traced start v) (scalar b start v) := by
  intro c
  simp only [scalar, Builder.traced]
  cases b.scalar v c.state.state <;> rfl

theorem atom_forgets : Forgets (atom b.traced) (atom b) := by
  intro c
  obtain ⟨text, t⟩ := c
  rcases atom_cases text with ⟨v, rest, h⟩ | ⟨fault, rest, h⟩
  · rw [h, h]
    exact scalar_forgets text v ⟨rest, t⟩
  · rw [h, h]
    rfl

theorem separated_forgets {item' : Reader (Traced σ) ν} {item : Reader σ ν}
    (hitem : Forgets item' item) (commas : Nat) (children : κ) :
    Forgets (separated b.traced item' commas children) (separated b item commas children) := by
  intro c
  have hstep := hitem c
  rcases hread : item' c with ⟨fault, c'⟩ | ⟨node, c'⟩
  · rw [hread] at hstep
    rw [separated_of_error hread, separated_of_error hstep.symm]
    rfl
  · rw [hread] at hstep
    rw [separated_of_ok hread, separated_of_ok hstep.symm]
    cases commas with
    | zero => rfl
    | succ commas =>
      simp only
      cases afterByte? comma (skipBlanks c'.rest) with
      | none => rfl
      | some rest => exact separated_forgets hitem commas _ _

theorem closing_forgets {close : UInt8} {unterminated : ReadFault}
    {take' : κ → Traced σ → Option (ν × Traced σ)} {take : κ → σ → Option (ν × σ)}
    (htake : ∀ k t, take' k t = (take k t.state).map fun (n, s) => (n, t.move s))
    (start : List UInt8) (children : κ) :
    Forgets (closing b.traced close unterminated take' start children)
      (closing b close unterminated take start children) := by
  intro c
  simp only [closing, htake]
  cases afterByte? close c.rest with
  | none => rfl
  | some rest => cases take children c.state.state <;> rfl

theorem container_forgets {limits : ReadLimits} {close : UInt8} {unterminated : ReadFault}
    {take' : κ → Traced σ → Option (ν × Traced σ)} {take : κ → σ → Option (ν × σ)}
    (htake : ∀ k t, take' k t = (take k t.state).map fun (n, s) => (n, t.move s))
    {item' : Reader (Traced σ) ν} {item : Reader σ ν} (hitem : Forgets item' item)
    (start : List UInt8) :
    Forgets (container b.traced limits close unterminated take' item' start)
      (container b limits close unterminated take item start) := by
  intro c
  by_cases hclose : (afterByte? close (skipBlanks c.rest)).isSome = true
  · rw [container_of_closed hclose, container_of_closed (c := ⟨c.rest, c.state.state⟩) hclose]
    exact closing_forgets htake start b.childless c.skipBlanks
  · rw [container_of_open hclose, container_of_open (c := ⟨c.rest, c.state.state⟩) hclose]
    refine (forget_bind (g := fun p => closing b close unterminated take start p.1 p.2)
      fun children c => closing_forgets htake start children c).trans ?_
    rw [separated_forgets hitem]
    rfl

theorem member_forgets {read' : Reader (Traced σ) ν} {read : Reader σ ν}
    (hread : Forgets read' read) : Forgets (member b.traced read') (member b read) := by
  intro c
  simp only [member, Cursor.skipBlanks]
  cases (afterByte? quote c.rest).isNone with
  | true => rfl
  | false =>
    cases StringLiteral.read c.rest with
    | error e => rfl
    | ok p =>
      simp only [ofScan, bind, Except.bind, Bool.false_eq_true, if_false]
      cases afterByte? colon (skipBlanks p.2) with
      | none => rfl
      | some rest =>
        have hstep := hread ⟨skipBlanks rest, c.state⟩
        simp only at hstep ⊢
        rw [← hstep]
        cases read' ⟨skipBlanks rest, c.state⟩ <;> rfl

theorem valueWith_forgets (limits : ReadLimits)
    (inner : Option (Reader (Traced σ) ν × Reader σ ν))
    (hinner : ∀ p ∈ inner, Forgets p.1 p.2) :
    Forgets (valueWith b.traced limits (inner.map Prod.fst))
      (valueWith b limits (inner.map Prod.snd)) := by
  intro c
  unfold valueWith
  simp only
  cases afterByte? openBracket c.rest with
  | some inside =>
    cases inner with
    | none => rfl
    | some p => exact container_forgets (fun _ _ => rfl) (hinner p rfl) c.rest ⟨inside, c.state⟩
  | none =>
    cases afterByte? openBrace c.rest with
    | some inside =>
      cases inner with
      | none => rfl
      | some p =>
        exact container_forgets (fun _ _ => rfl) (member_forgets (hinner p rfl)) c.rest
          ⟨inside, c.state⟩
    | none => exact atom_forgets c

theorem tracing_forgets (limits : ReadLimits) (levels around : Nat) :
    Forgets (tracing b limits levels around) (value b limits levels) := by
  induction levels generalizing around with
  | zero =>
    intro c
    exact valueWith_forgets limits none (fun p h => nomatch h) (beginning around c)
  | succ levels ih =>
    intro c
    refine valueWith_forgets limits (some (_, _)) (fun p h => ?_) (beginning around c)
    cases h
    exact ih (around + 1)

/-- The trace does not matter to what is read. -/
theorem tracingDocument_forgets (limits : ReadLimits) (whole : Bool) (text : List UInt8)
    (t : Traced σ) :
    forget (tracingDocument b limits whole text t) = document b limits whole text t.state := by
  refine (forget_bind (g := fun p : ν × Cursor σ =>
    if whole then
      if p.2.skipBlanks.rest.isEmpty then .ok (p.1, p.2.skipBlanks)
      else .error (.trailingData, { p.2.skipBlanks with state := b.discard p.1 p.2.state })
    else .ok p) fun node c => ?_).trans ?_
  · cases whole with
    | false => rfl
    | true =>
      by_cases hrest : skipBlanks c.rest = []
      · simp only [Cursor.skipBlanks, hrest, List.isEmpty_nil, if_true]
        rfl
      · simp only [Cursor.skipBlanks, List.isEmpty_iff, hrest, if_true, if_false]
        rfl
  · rw [tracing_forgets]
    rfl

end Reading

/-! ## What stays in a trace -/

/-- A relation that holds between the traces at the beginning and at the end of each step of a
reading. -/
structure Builder.Keeps {σ ν κ : Type} (b : Builder σ ν κ) (R : Traced σ → Traced σ → Prop) :
    Prop where
  refl : ∀ t, R t t
  trans : ∀ {t t' t''}, R t t' → R t' t'' → R t t''
  move : ∀ {t s}, b.Moves t.state s → R t (t.move s)
  begin : ∀ t around text, R t (t.begin around text)

namespace Reading

variable {σ ν κ α : Type} {b : Builder σ ν κ} {R : Traced σ → Traced σ → Prop}

theorem outcome_iff_final {s : σ} {R : σ → σ → Prop} {x : Reading σ (α × Cursor σ)} :
    Outcome s (fun s s' _ => R s s') R x ↔ R s (final x) := by
  cases x <;> rfl

theorem effects_of_keeps (h : b.Keeps R) :
    b.traced.Effects (fun t t' _ => R t t') (fun t t' _ => R t t') R where
  refl := h.refl
  scalar := by
    intro v t n t' hstep
    obtain ⟨s, hs, rfl⟩ := Builder.exists_of_map_move hstep
    exact h.move (.scalar hs)
  childless := h.refl
  push hopen hdone := h.trans hopen (h.trans hdone (h.move (.push ..)))
  rename name hdone := h.trans hdone (h.move (.rename ..))
  array := by
    intro t t₁ k n t₂ hopen hstep
    obtain ⟨s, hs, rfl⟩ := Builder.exists_of_map_move hstep
    exact h.trans hopen (h.move (.array hs))
  object := by
    intro t t₁ k n t₂ hopen hstep
    obtain ⟨s, hs, rfl⟩ := Builder.exists_of_map_move hstep
    exact h.trans hopen (h.move (.object hs))
  abandon hopen hundone := h.trans hopen (h.trans hundone (h.move (.abandon ..)))
  discard hdone := h.trans hdone (h.move (.discard ..))

/-- A reader at whose end the relation holds. -/
abbrev Retains (R : σ → σ → Prop) (read : Reader σ α) : Prop :=
  Leads read (fun s s' _ => R s s') R

theorem tracing_retains (h : b.Keeps R) (limits : ReadLimits) (levels around : Nat) :
    Retains R (tracing b limits levels around) := by
  have step (inner : Option (Reader (Traced σ) ν)) (hinner : ∀ read ∈ inner, Retains R read)
      (around : Nat) : Retains R fun c => valueWith b.traced limits inner (beginning around c) := by
    intro c
    have hvalue : Outcome (beginning around c).state (fun t t' _ => R t t') R
        (valueWith b.traced limits inner (beginning around c)) :=
      valueWith_leads (effects_of_keeps h) hinner (beginning around c)
    exact outcome_iff_final.2 (h.trans (h.begin ..) (outcome_iff_final.1 hvalue))
  induction levels generalizing around with
  | zero => exact step none (fun read h => nomatch h) around
  | succ levels ih =>
    refine step (some _) (fun read h => ?_) around
    cases h
    exact ih (around + 1)

theorem tracingDocument_retains (h : b.Keeps R) (limits : ReadLimits) (whole : Bool)
    (text : List UInt8) (t : Traced σ) : R t (final (tracingDocument b limits whole text t)) := by
  have hvalue := outcome_iff_final.1 (tracing_retains h limits limits.maxDepth.toNat 0
    (Cursor.skipBlanks ⟨text, t⟩))
  unfold tracingDocument
  generalize tracing b limits limits.maxDepth.toNat 0 (Cursor.skipBlanks ⟨text, t⟩) = x at hvalue ⊢
  rcases x with e | ⟨node, c⟩
  · exact hvalue
  · cases whole with
    | false => exact hvalue
    | true =>
      simp only [bind, Except.bind, if_true]
      split
      · exact hvalue
      · exact h.trans hvalue (h.move (.discard ..))

end Reading

/-! ## The trace of a document -/

/-- What happens while a document is read: the trace at its end, or at its fault. -/
def Builder.trace {σ ν κ : Type} (b : Builder σ ν κ) (options : ReadOptions) (bytes : List UInt8)
    (s : σ) : Traced σ :=
  if bytes.isEmpty || (options.tooLong bytes).isSome then .start s
  else
    let text := content bytes
    Reading.final (Reading.tracingDocument b ⟨options.maxDepth, text.length⟩ options.whole text
      (.start s))

/-- What a reading of the text tells of the document. -/
def Reading.told {σ ν : Type} (bytes : List UInt8) :
    Reading (Traced σ) (ν × Cursor (Traced σ)) → Except ReadFailure (ν × Nat) × σ
  | .ok (node, c) => (.ok (node, (content bytes).length - c.rest.length), c.state.state)
  | .error (fault, c) =>
    (.error ⟨fault, .ofOffset bytes ((content bytes).length - c.rest.length : Nat)⟩, c.state.state)

theorem Reading.state_final {σ ν : Type} (bytes : List UInt8)
    (x : Reading (Traced σ) (ν × Cursor (Traced σ))) : (final x).state = (told bytes x).2 := by
  cases x <;> rfl

namespace Builder

variable {σ ν κ : Type} {b : Builder σ ν κ}

/-- A document is refused unread, or its text is read and tells both the trace and the result. -/
theorem trace_cases (b : Builder σ ν κ) (options : ReadOptions) (bytes : List UInt8) (s : σ) :
    (∃ fault, (fault = .noInput ∨ options.tooLong bytes = some fault) ∧
      ∀ maxDepth, b.trace { options with maxDepth } bytes s = .start s ∧
        b.read { options with maxDepth } bytes s = (.error ⟨fault, .ofOffset bytes 0⟩, s)) ∨
    ∀ maxDepth,
      let reading := Reading.tracingDocument b ⟨maxDepth, (content bytes).length⟩ options.whole
        (content bytes) (.start s)
      b.trace { options with maxDepth } bytes s = Reading.final reading ∧
        b.read { options with maxDepth } bytes s = Reading.told bytes reading := by
  have hlong (maxDepth : Int) :
      { options with maxDepth }.tooLong bytes = options.tooLong bytes := rfl
  unfold trace read
  simp only [hlong]
  cases bytes.isEmpty with
  | true => exact .inl ⟨.noInput, .inl rfl, fun _ => ⟨rfl, rfl⟩⟩
  | false =>
    cases options.tooLong bytes with
    | some fault => exact .inl ⟨fault, .inr rfl, fun _ => ⟨rfl, rfl⟩⟩
    | none =>
      refine .inr fun maxDepth => ⟨rfl, ?_⟩
      have hforget := Reading.tracingDocument_forgets (b := b) ⟨maxDepth, (content bytes).length⟩
        options.whole (content bytes) (.start s)
      change Reading.forget _ = Reading.document b _ options.whole (content bytes) s at hforget
      simp only [Bool.false_eq_true, if_false, ← hforget]
      cases Reading.tracingDocument b ⟨maxDepth, (content bytes).length⟩ options.whole
        (content bytes) (.start s) <;> rfl

theorem trace_retains {R : Traced σ → Traced σ → Prop} (h : b.Keeps R) (options : ReadOptions)
    (bytes : List UInt8) (s : σ) : R (.start s) (b.trace options bytes s) := by
  unfold trace
  split
  · exact h.refl _
  · exact Reading.tracingDocument_retains h ..

/-- A trace ends in the state that the reading ends in. -/
theorem state_trace (b : Builder σ ν κ) (options : ReadOptions) (bytes : List UInt8) (s : σ) :
    (b.trace options bytes s).state = (b.read options bytes s).2 := by
  rcases b.trace_cases options bytes s with ⟨fault, -, hunread⟩ | hreading
  · obtain ⟨htrace, hread⟩ := hunread options.maxDepth
    exact (congrArg Traced.state htrace).trans (congrArg Prod.snd hread).symm
  · obtain ⟨htrace, hread⟩ := hreading options.maxDepth
    refine (congrArg Traced.state htrace).trans (.trans ?_ (congrArg Prod.snd hread).symm)
    exact Reading.state_final bytes _

/-- The states of a trace lead from the first state to the last, one step of the builder after
another. -/
theorem states_trace (b : Builder σ ν κ) (options : ReadOptions) (bytes : List UInt8) (s : σ) :
    let states := (b.trace options bytes s).states
    states.head? = some s ∧ states.IsChain b.Moves ∧
      states.getLast? = some (b.read options bytes s).2 := by
  have keeps : b.Keeps fun t t' =>
      t.states.head? = some s ∧ t.states.IsChain b.Moves ∧ t.states.getLast? = some t.state →
      t'.states.head? = some s ∧ t'.states.IsChain b.Moves ∧
        t'.states.getLast? = some t'.state := by
    refine ⟨fun _ => id, fun h h' => h' ∘ h, ?_, fun _ _ _ => id⟩
    rintro t s' hmove ⟨hhead, hchain, hlast⟩
    refine ⟨?_, ?_, ?_⟩
    · simp [Traced.move, hhead]
    · refine List.isChain_append.2 ⟨hchain, List.isChain_singleton _, ?_⟩
      intro u hu v hv
      rw [hlast] at hu
      cases hu
      cases hv
      exact hmove
    · simp [Traced.move]
  have hstates := trace_retains keeps options bytes s ⟨rfl, List.isChain_singleton _, rfl⟩
  rwa [state_trace] at hstates

end Builder

end LinkedJson
