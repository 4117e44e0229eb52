import LinkedJson.Proofs.Reading.Steps

/-!
# Numbers that a reader asks for

A reader takes nodes for numbers whose integer is the 32-bit view of their double, and for no other
ones. So a builder that refuses all other numbers reads every document as the builder itself does
(`Builder.read_mirrored`), and what holds of the one holds of the other.
-/

namespace LinkedJson

/-- The integer of a number is the 32-bit view of its double. -/
def Scalar.Mirrored : Scalar → Prop
  | .number n => n.integer = n.value.toInt32
  | _ => True

instance (v : Scalar) : Decidable v.Mirrored := by
  unfold Scalar.Mirrored
  split <;> infer_instance

/-- The builder that refuses nodes for other numbers. -/
def Builder.mirrored {σ ν κ : Type} (b : Builder σ ν κ) : Builder σ ν κ :=
  { b with scalar := fun v s => if v.Mirrored then b.scalar v s else none }

namespace Reading

variable {σ ν κ : Type} (b : Builder σ ν κ)

theorem scalar_mirrored {v : Scalar} (h : v.Mirrored) (start : List UInt8) :
    scalar b.mirrored start v = scalar b start v := by
  have htake : b.mirrored.scalar v = b.scalar v := funext fun _ => if_pos h
  funext c
  unfold scalar
  rw [htake]

/-- Every scalar that the reader asks for is mirrored: its numbers are those of doubles. -/
theorem atom_mirrored : atom b.mirrored = atom b := by
  funext c
  have hnull : scalar b.mirrored c.rest .null = scalar b c.rest .null :=
    scalar_mirrored b (v := .null) trivial c.rest
  have hbool (value : Bool) : scalar b.mirrored c.rest (.bool value) =
      scalar b c.rest (.bool value) :=
    scalar_mirrored b (v := .bool value) trivial c.rest
  have hstring (s : String) : scalar b.mirrored c.rest (.string s) = scalar b c.rest (.string s) :=
    scalar_mirrored b (v := .string s) trivial c.rest
  have hnumber (d : Double) : scalar b.mirrored c.rest (.number (.ofDouble d)) =
      scalar b c.rest (.number (.ofDouble d)) :=
    scalar_mirrored b (v := .number (.ofDouble d)) rfl c.rest
  unfold atom
  simp only [hnull, hbool, hstring, hnumber]

/-- Items are put together in the same way. -/
theorem separated_mirrored (item : Reader σ ν) (commas : Nat) (children : κ) (c : Cursor σ) :
    separated b.mirrored item commas children c = separated b item commas children c := by
  induction commas generalizing children c with
  | zero =>
    unfold separated
    rfl
  | succ commas ih =>
    cases h : item c with
    | error e =>
      rw [separated_of_error h, separated_of_error h]
      rfl
    | ok p =>
      rw [separated_of_ok h, separated_of_ok h]
      cases afterByte? Ascii.comma (skipBlanks p.2.rest) with
      | none => rfl
      | some rest => exact ih ..

theorem container_mirrored (limits : ReadLimits) (close : UInt8) (unterminated : ReadFault)
    (take : κ → σ → Option (ν × σ)) (item : Reader σ ν) (start : List UInt8) :
    container b.mirrored limits close unterminated take item start =
      container b limits close unterminated take item start := by
  funext c
  unfold container
  simp only [separated_mirrored]
  rfl

/-- The containers ask for nodes in the same way. -/
theorem valueWith_mirrored (limits : ReadLimits) (inner : Option (Reader σ ν)) :
    valueWith b.mirrored limits inner = valueWith b limits inner := by
  funext c
  unfold valueWith
  rw [atom_mirrored]
  simp only [container_mirrored]
  rfl

theorem value_mirrored (limits : ReadLimits) (levels : Nat) :
    value b.mirrored limits levels = value b limits levels := by
  induction levels with
  | zero =>
    funext c
    rw [value, value, valueWith_mirrored]
  | succ levels ih =>
    funext c
    rw [value, value, valueWith_mirrored, ih]

end Reading

theorem Builder.read_mirrored {σ ν κ : Type} (b : Builder σ ν κ) (options : ReadOptions)
    (bytes : List UInt8) (s : σ) : b.mirrored.read options bytes s = b.read options bytes s := by
  have hdocument (limits : ReadLimits) : Reading.document b.mirrored limits options.whole
      (content bytes) s = Reading.document b limits options.whole (content bytes) s := by
    unfold Reading.document
    rw [Reading.value_mirrored]
    rfl
  unfold Builder.read
  simp only [hdocument]

end LinkedJson
