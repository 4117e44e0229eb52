import LinkedJson.Text.Utf8

/-!
# Output buffers

A buffer is storage with an offset. What lies before the offset is settled; a writer puts its bytes
at the offset, ends them with a zero byte, and leaves the offset to be settled afterwards. A
growable buffer asks a byte budget for larger storage, a fixed one never changes its size.

A caller may set the offset to any whole number. What a writer puts in front of the storage is lost,
and the bytes before a negative place are those up to that place counted back from the end.
-/

namespace LinkedJson

/-- The largest storage that a buffer may have. -/
def greatestLength : Nat :=
  Nat.pow 2 53 - 1

/-- A limit on the size of one piece of storage, if there is one, and the sum of all sizes
granted. -/
structure ByteBudget where
  limit : Option Int
  granted : Nat
  deriving Repr, DecidableEq

namespace ByteBudget

def unlimited : ByteBudget :=
  ⟨none, 0⟩

/-- The budget allows storage of `size` bytes. -/
def allows (budget : ByteBudget) (size : Nat) : Bool :=
  match budget.limit with
  | none => true
  | some limit => size ≤ limit

/-- Takes storage of `size` bytes out of the budget. -/
def grant? (budget : ByteBudget) (size : Nat) : Option ByteBudget :=
  if budget.allows size then some { budget with granted := budget.granted + size } else none

end ByteBudget

structure Buffer where
  storage : Array UInt8
  offset : Int
  growable : Bool
  budget : ByteBudget

namespace Buffer

/-- A growable buffer over `size` zero bytes, if the size is possible and the budget allows it. -/
def create? (size : Int) (budget : ByteBudget) : Option Buffer :=
  if size < 0 ∨ greatestLength < size then none
  else (budget.grant? size.toNat).map fun budget => ⟨.replicate size.toNat 0, 0, true, budget⟩

/-- A buffer over the storage of a caller. -/
def fixed (storage : Array UInt8) : Buffer :=
  ⟨storage, 0, false, .unlimited⟩

def capacity (b : Buffer) : Nat :=
  b.storage.size

/-- The bytes before a place. A negative place is counted back from the end of the storage. -/
def before (place : Int) (storage : Array UInt8) : List UInt8 :=
  storage.toList.take (if place < 0 then place + storage.size else place).toNat

/-! ## Writing bytes -/

/-- Puts bytes over the storage from a place on. Bytes that fall outside are lost. -/
def overwrite (storage : Array UInt8) (start : Nat) : List UInt8 → Array UInt8
  | [] => storage
  | b :: bytes => overwrite (storage.setIfInBounds start b) (start + 1) bytes

/-- Puts bytes at a place; what falls outside of the storage, at either end, is lost. -/
def putAll (start : Int) (bytes : List UInt8) (b : Buffer) : Buffer :=
  { b with storage := overwrite b.storage start.toNat (bytes.drop (-start).toNat) }

/-- Puts one byte at a place. -/
def put (start : Int) (byte : UInt8) (b : Buffer) : Buffer :=
  b.putAll start [byte]

/-- Puts bytes at a place if all of them fit. -/
def putWhole? (start : Int) (bytes : List UInt8) (b : Buffer) : Option Buffer :=
  if 0 ≤ start ∧ start + bytes.length ≤ b.capacity then some (b.putAll start bytes) else none

/-! ## Room -/

/-- The size that a buffer grows to when it needs `required` bytes: twice as much, up to the largest
size. -/
def grownSize (required : Nat) : Nat :=
  min (2 * required) greatestLength

/-- Larger storage that begins with the bytes up to the offset, the one at the offset included. -/
def grow (size : Nat) (b : Buffer) : Array UInt8 :=
  overwrite (.replicate size 0) 0 (before (b.offset + 1) b.storage)

/-- Makes room for `needed` bytes at the offset. A negative number of bytes asks for room that ends
before the offset. -/
@[inline] def reserve? (needed : Int) (b : Buffer) : Option Buffer :=
  let required := b.offset + needed
  if greatestLength < needed then none
  else if required ≤ b.capacity then some b
  else if ¬ b.growable ∨ greatestLength < required then none
  else (b.budget.grant? (grownSize required.toNat)).map fun budget =>
    { b with storage := b.grow (grownSize required.toNat), budget }

/-- Writes a text and a zero byte at the offset, after making room for `needed` bytes. The offset
stays where it is. -/
@[inline] def write? (needed : Nat) (text : List UInt8) (b : Buffer) : Option Buffer :=
  (b.reserve? needed).map fun b => b.putAll b.offset (text ++ [0])

/-! ## The offset -/

/-- The place of the first zero byte from `i` on, or the end of the storage. -/
def contentEnd (storage : Array UInt8) (i : Nat) : Nat :=
  if h : i < storage.size then
    if storage[i] = 0 then i else contentEnd storage (i + 1)
  else i
  termination_by storage.size - i

/-- Moves the offset behind the text that was written at it. What lies in front of the storage
counts as written. -/
def settle (b : Buffer) : Buffer :=
  { b with offset := contentEnd b.storage b.offset.toNat }

/-- Moves the offset forward. -/
def advance (n : Nat) (b : Buffer) : Buffer :=
  { b with offset := b.offset + n }

/-- The bytes before the offset. -/
def written (b : Buffer) : List UInt8 :=
  before b.offset b.storage

/-- The text before the offset. -/
def text (b : Buffer) : String :=
  Utf8.decodeLossy b.written

/-! ## Laws -/

@[simp] theorem size_overwrite (storage : Array UInt8) (start : Nat) (bytes : List UInt8) :
    (overwrite storage start bytes).size = storage.size := by
  induction bytes generalizing storage start with
  | nil => rfl
  | cons b bytes ih => simp [overwrite, ih]

/-- What stands at a place after bytes were put over the storage. -/
theorem getElem?_overwrite (storage : Array UInt8) (start i : Nat) (bytes : List UInt8) :
    (overwrite storage start bytes)[i]? =
      if start ≤ i ∧ i < start + bytes.length ∧ i < storage.size then bytes[i - start]?
      else storage[i]? := by
  induction bytes generalizing storage start with
  | nil =>
    rw [overwrite, if_neg]
    simp only [List.length_nil, Nat.add_zero]
    omega
  | cons b bytes ih =>
    rw [overwrite, ih, Array.size_setIfInBounds, Array.getElem?_setIfInBounds]
    by_cases hi : start = i
    · subst hi
      grind
    · by_cases hlt : start < i
      · have : i - start = i - (start + 1) + 1 := by omega
        rw [this, List.getElem?_cons_succ]
        grind
      · grind

/-- Bytes before the place keep their value. -/
theorem getElem?_overwrite_of_lt {storage : Array UInt8} {start i : Nat} {bytes : List UInt8}
    (h : i < start) : (overwrite storage start bytes)[i]? = storage[i]? := by
  rw [getElem?_overwrite, if_neg]
  omega

@[simp] theorem putAll_natCast (start : Nat) (bytes : List UInt8) (b : Buffer) :
    b.putAll start bytes = { b with storage := overwrite b.storage start bytes } := by
  simp [putAll]

@[simp] theorem before_natCast (n : Nat) (storage : Array UInt8) :
    before n storage = storage.toList.take n := by
  rw [before, if_neg (by omega), Int.toNat_natCast]

/-- Room that is granted is room: the storage holds the bytes asked for, and the offset stays. -/
theorem capacity_of_reserve? {needed : Int} {b b' : Buffer} (h : b.reserve? needed = some b') :
    b'.offset = b.offset ∧ b.offset + needed ≤ b'.capacity := by
  simp only [reserve?] at h
  split at h
  · simp at h
  · split at h
    · cases h
      exact ⟨rfl, by assumption⟩
    · split at h
      · simp at h
      · rename_i hlimit
        obtain ⟨budget, -, rfl⟩ := Option.map_eq_some_iff.1 h
        refine ⟨rfl, ?_⟩
        simp only [capacity, grow, size_overwrite, Array.size_replicate, grownSize]
        omega

end Buffer

end LinkedJson
