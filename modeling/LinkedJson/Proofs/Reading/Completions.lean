import LinkedJson.Proofs.Reading.Effects

/-!
# The values that a reading completes

A scalar is complete when its token is read, and a container when its closing bracket is read, so
the values inside a container are complete before it. `Reading.completing` reads over a builder that
refuses nothing, and notes of each value that is complete where it began. What was noted before a
fault stays noted, so `Document.completions` counts the values of texts that are not read as well.
-/

namespace LinkedJson

/-- Stands for no nodes at all. It refuses none and leaves the state to others. -/
def Builder.idle (σ : Type) : Builder σ Unit Unit where
  scalar _ s := some ((), s)
  array _ s := some ((), s)
  object _ s := some ((), s)
  childless := ()
  push _ _ s := ((), s)
  rename _ _ s := ((), s)
  abandon _ s := s
  discard _ s := s

namespace Reading

/-- The values that are complete, in the order of completion, each as the text from its first byte
on. -/
abbrev Completed :=
  List (List UInt8)

/-- Notes that a value is complete which began at `start`. -/
def noted (start : List UInt8) :
    Reading Completed (Unit × Cursor Completed) → Reading Completed (Unit × Cursor Completed)
  | .ok (_, c) => .ok ((), { c with state := c.state ++ [start] })
  | .error e => .error e

/-- Reads a value inside of which `levels` containers may nest, and notes it and the values in it
when they are complete. -/
def completing (limits : ReadLimits) : (levels : Nat) → Reader Completed Unit
  | 0 => fun c => noted c.rest (valueWith (.idle Completed) limits none c)
  | levels + 1 => fun c =>
    noted c.rest (valueWith (.idle Completed) limits (some fun c => completing limits levels c) c)

/-- What was noted by the end of a reading. -/
def completed {α : Type} : Reading Completed (α × Cursor Completed) → Completed
  | .ok (_, c) => c.state
  | .error (_, c) => c.state

end Reading

/-- The offsets of the first bytes of the values that the reading of a document completes before it
ends or fails, in the order of completion. -/
def Document.completions (options : ReadOptions) (bytes : List UInt8) : List Nat :=
  if bytes.isEmpty || (options.tooLong bytes).isSome then []
  else
    let text := content bytes
    let reading := Reading.completing ⟨options.maxDepth, text.length⟩ options.maxDepth.toNat
      (Cursor.skipBlanks ⟨text, []⟩)
    (Reading.completed reading).map fun start => text.length - start.length

/-- The items of an array are complete before it, and an item that is not read is not complete. -/
example : Document.completions {} (Utf8.encode "[true, [], x") = [1, 7] := by decide +kernel

namespace Reading

/-! ## What was noted stays noted -/

theorem idle_effects :
    (Builder.idle Completed).Effects (fun l l' _ => l <+: l') (fun l l' _ => l <+: l')
      (fun l l' => l <+: l') where
  refl := List.prefix_refl
  scalar := by
    intro v l _ l' h
    cases h
    exact List.prefix_refl _
  childless := List.prefix_refl
  push := List.IsPrefix.trans
  rename := fun _ h => h
  array := by
    intro l l₁ k _ l₂ h hstep
    cases hstep
    exact h
  object := by
    intro l l₁ k _ l₂ h hstep
    cases hstep
    exact h
  abandon := List.IsPrefix.trans
  discard := fun h => h

/-- A reader that only adds to what was noted. -/
abbrev Notes (count : Reader Completed Unit) : Prop :=
  Leads count (fun l l' _ => l <+: l') (fun l l' => l <+: l')

theorem outcome_notes_iff {α : Type} {l : Completed}
    {reading : Reading Completed (α × Cursor Completed)} :
    Outcome l (fun l l' _ => l <+: l') (fun l l' => l <+: l') reading ↔
      l <+: completed reading := by
  cases reading <;> rfl

theorem prefix_noted (start : List UInt8) (reading : Reading Completed (Unit × Cursor Completed)) :
    completed reading <+: completed (noted start reading) := by
  cases reading with
  | ok p => exact List.prefix_append ..
  | error e => exact List.prefix_refl _

theorem notes_completing (limits : ReadLimits) (levels : Nat) : Notes (completing limits levels) := by
  have step : ∀ inner : Option (Reader Completed Unit), (∀ read ∈ inner, Notes read) →
      Notes fun c => noted c.rest (valueWith (.idle Completed) limits inner c) := by
    intro inner hinner c
    exact outcome_notes_iff.2 ((outcome_notes_iff.1
      (valueWith_leads idle_effects hinner c)).trans (prefix_noted ..))
  induction levels with
  | zero => exact step none fun read h => nomatch h
  | succ levels ih =>
    refine step (some _) fun read h => ?_
    cases h
    exact ih

end Reading

end LinkedJson
