import LinkedJson.Proofs.Writing.Storage

/-!
# Making room

Room is made in steps. What is needed is compared with the greatest length and with the room there
is, a size is chosen, the budget is asked for it, the bytes up to the offset are copied into the new
storage, and only then the old storage is given up. A copy that does not fit into the new storage is
not cut short: it is a fault (`Misfit`).

`makeRoom` goes through these steps, and it is `reserve?`: the fault is never met (`makeRoom_eq`).
A buffer may be used in any way, and its offset may be put anywhere, even far behind the end of the
storage (`Use`). All that room needs is that no use leaves the offset below zero
(`Used.offset_nonneg`). So room is made without losing a byte up to the offset, or it is refused
with nothing changed, under the conditions of `RoomRefused` and no others (`Used.makeRoom_exact`).
-/

namespace LinkedJson.Buffer

variable {b b' : Buffer} {n size : Nat}

/-! ## The steps -/

/-- Bytes that have to be put as a whole do not fit into the storage. -/
inductive Misfit where
  | misfit

/-- Takes new storage out of the budget and moves the bytes up to the offset into it, the one at the
offset included. The answer is the offset, if the budget allows the storage. -/
def moveInto (size : Nat) : EStateM Misfit Buffer (Option Int) := do
  let b ← get
  match b.budget.grant? size with
  | none => return none
  | some budget =>
    set { b with budget }
    let copy := before (b.offset + 1) b.storage
    match { b with storage := .replicate size 0, budget }.putWhole? 0 copy with
    | none => throw .misfit
    | some b =>
      set b
      return some b.offset

/-- Makes room for `needed` bytes at the offset. The answer is the offset, if there is room. -/
def makeRoom (needed : Int) : EStateM Misfit Buffer (Option Int) := do
  let b ← get
  let required := b.offset + needed
  if greatestLength < needed then
    return none
  else if required ≤ b.capacity then
    return some b.offset
  else if ¬ b.growable then
    return none
  else if 2 * required ≤ greatestLength then
    moveInto (2 * required).toNat
  else if required ≤ greatestLength then
    moveInto greatestLength
  else
    return none

/-- A program that begins with a look at its state goes on with it. -/
theorem get_bind_apply {ε σ α : Type} (f : σ → EStateM ε σ α) (s : σ) : (get >>= f) s = f s s :=
  rfl

theorem length_before_le (place : Int) (storage : Array UInt8) :
    (before place storage).length ≤ storage.size := by
  rw [before, List.length_take, Array.length_toList]
  exact Nat.min_le_right ..

/-- New storage that is no smaller than the old one has room for the copy. -/
theorem moveInto_eq (hsize : b.capacity ≤ size) :
    moveInto size b =
      match b.budget.grant? size with
      | none => .ok none b
      | some budget => .ok (some b.offset) { b with storage := b.grow size, budget } := by
  have hcopy := length_before_le (b.offset + 1) b.storage
  have hfits (budget : ByteBudget) : { b with storage := .replicate size 0, budget }.putWhole? 0
      (before (b.offset + 1) b.storage) = some { b with storage := b.grow size, budget } := by
    rw [putWhole?, if_pos]
    · rfl
    · unfold capacity at hsize ⊢
      rw [Array.size_replicate]
      omega
  rw [moveInto, get_bind_apply]
  cases b.budget.grant? size with
  | none => rfl
  | some budget =>
    simp only [hfits]
    rfl

theorem makeRoom_apply (needed : Int) (b : Buffer) :
    makeRoom needed b =
      if greatestLength < needed then .ok none b
      else if b.offset + needed ≤ b.capacity then .ok (some b.offset) b
      else if ¬ b.growable then .ok none b
      else if 2 * (b.offset + needed) ≤ greatestLength then
        moveInto (2 * (b.offset + needed)).toNat b
      else if b.offset + needed ≤ greatestLength then moveInto greatestLength b
      else .ok none b := by
  rw [makeRoom, get_bind_apply]
  repeat' split
  all_goals rfl

/-- Within the limits a full buffer that can grow moves into storage of the grown size. -/
theorem makeRoom_of_lt {needed : Int} (hneeded : needed ≤ greatestLength)
    (hfull : b.capacity < b.offset + needed) (hgrowable : b.growable = true)
    (hrequired : b.offset + needed ≤ greatestLength) :
    makeRoom needed b = moveInto (grownSize (b.offset + needed).toNat) b := by
  rw [makeRoom_apply, if_neg (Int.not_lt.2 hneeded), if_neg (Int.not_le.2 hfull),
    if_neg (not_not_intro hgrowable), grownSize]
  by_cases hdouble : 2 * (b.offset + needed) ≤ greatestLength
  · rw [if_pos hdouble]
    congr 1
    omega
  · rw [if_neg hdouble, if_pos hrequired]
    congr 1
    omega

/-- **The steps never meet the fault**, and come to what `reserve?` says. -/
theorem makeRoom_eq (needed : Int) (b : Buffer) :
    makeRoom needed b =
      match b.reserve? needed with
      | none => .ok none b
      | some b' => .ok (some b.offset) b' := by
  unfold reserve?
  dsimp only
  by_cases hneeded : greatestLength < needed
  · rw [makeRoom_apply, if_pos hneeded, if_pos hneeded]
  rw [if_neg hneeded]
  by_cases hfits : b.offset + needed ≤ b.capacity
  · rw [makeRoom_apply, if_neg hneeded, if_pos hfits, if_pos hfits]
  rw [if_neg hfits]
  by_cases hstays : ¬ b.growable = true ∨ greatestLength < b.offset + needed
  · rw [makeRoom_apply, if_neg hneeded, if_neg hfits, if_pos hstays]
    rcases hstays with hfixed | hbeyond
    · rw [if_pos hfixed]
    · rw [if_neg (by omega : ¬ 2 * (b.offset + needed) ≤ greatestLength),
        if_neg (Int.not_le.2 hbeyond)]
      exact ite_self _
  · obtain ⟨hgrowable, hrequired⟩ := not_or.1 hstays
    have hsize : b.capacity ≤ grownSize (b.offset + needed).toNat := by
      rw [grownSize]
      omega
    rw [if_neg hstays, makeRoom_of_lt (Int.not_lt.1 hneeded) (Int.not_le.1 hfits)
      (Decidable.not_not.1 hgrowable) (Int.not_lt.1 hrequired), moveInto_eq hsize]
    cases b.budget.grant? (grownSize (b.offset + needed).toNat) with
    | none => rfl
    | some budget => rfl

/-! ## What a request comes to -/

/-- There is no room for `n` bytes at the offset `o`, and none can be made. -/
def RoomRefused (o n : Nat) (b : Buffer) : Prop :=
  greatestLength < n ∨
    b.capacity < o + n ∧
      (b.growable = false ∨ greatestLength < o + n ∨
        b.budget.allows (min (2 * (o + n)) greatestLength) = false)

/-- The buffer `b'` is `b` with room for `n` bytes at the offset `o`: it is `b` as it was, or `b`
with new storage that is all that was taken out of the budget. -/
structure Roomy (o n : Nat) (b b' : Buffer) : Prop where
  offset_eq : b'.offset = b.offset
  room : o + n ≤ b'.capacity
  kept : ∀ i ≤ o, i < b.capacity → b'.storage[i]? = b.storage[i]?
  accounted : b' = b ∨ b.capacity < o + n ∧ ∃ storage : Array UInt8,
    storage.size = min (2 * (o + n)) greatestLength ∧ b' = { b with
      storage, budget := { b.budget with granted := b.budget.granted + storage.size } }

/-- New storage begins with what was stored up to the offset. -/
theorem getElem?_grow {o i : Nat} (hoffset : b.offset = o) (hsize : b.capacity ≤ size)
    (hi : i ≤ o) (hstored : i < b.capacity) : (b.grow size)[i]? = b.storage[i]? := by
  have hcopy : before (b.offset + 1) b.storage = b.storage.toList.take (o + 1) := by
    rw [hoffset]
    exact before_natCast (o + 1) b.storage
  have hlength : i < (b.storage.toList.take (o + 1)).length := by
    rw [List.length_take, Array.length_toList]
    unfold capacity at hstored
    omega
  rw [grow, hcopy, getElem?_overwrite, Array.size_replicate, if_pos (by omega), Nat.sub_zero,
    List.getElem?_take, if_pos (Nat.lt_succ_of_le hi), Array.getElem?_toList]

/-- A request is refused, or met as it is, or met by growing. -/
theorem reserve?_cases {o : Nat} (hoffset : b.offset = o) (n : Nat) :
    RoomRefused o n b ∧ b.reserve? n = none ∨
      ¬ RoomRefused o n b ∧ o + n ≤ b.capacity ∧ b.reserve? n = some b ∨
      ¬ RoomRefused o n b ∧ b.capacity < o + n ∧ o + n ≤ greatestLength ∧
        b.reserve? n = some { b with
          storage := b.grow (grownSize (o + n))
          budget := { b.budget with granted := b.budget.granted + grownSize (o + n) } } := by
  have hrequired : b.offset + n = (o + n : Nat) := by rw [hoffset, Int.natCast_add]
  unfold reserve? RoomRefused ByteBudget.grant?
  simp only [hrequired, Int.toNat_natCast, Int.ofNat_le, Int.ofNat_lt, grownSize]
  by_cases hneeded : greatestLength < n
  · exact .inl ⟨.inl hneeded, if_pos hneeded⟩
  rw [if_neg hneeded]
  by_cases hfits : o + n ≤ b.capacity
  · exact .inr (.inl ⟨by omega, hfits, if_pos hfits⟩)
  rw [if_neg hfits]
  have hfull := Nat.lt_of_not_le hfits
  by_cases hstays : ¬ b.growable = true ∨ greatestLength < o + n
  · rw [if_pos hstays, ← Bool.not_eq_true]
    exact .inl ⟨.inr ⟨hfull, hstays.imp_right .inl⟩, rfl⟩
  rw [if_neg hstays, ← Bool.not_eq_true, ← Bool.not_eq_true]
  obtain ⟨hgrowable, hlimit⟩ := not_or.1 hstays
  by_cases hallows : b.budget.allows (min (2 * (o + n)) greatestLength) = true
  · rw [if_pos hallows]
    refine .inr (.inr ⟨?_, hfull, Nat.le_of_not_lt hlimit, rfl⟩)
    rintro (hlarge | ⟨-, hfixed | hbeyond | hrefused⟩)
    · exact hneeded hlarge
    · exact hgrowable hfixed
    · exact hlimit hbeyond
    · exact hrefused hallows
  · rw [if_neg hallows]
    exact .inl ⟨.inr ⟨hfull, .inr (.inr hallows)⟩, rfl⟩

theorem roomy_of_reserve? {o : Nat} (hoffset : b.offset = o) (h : b.reserve? n = some b') :
    Roomy o n b b' := by
  rcases reserve?_cases hoffset n with
    ⟨-, hreserve⟩ | ⟨-, hfits, hreserve⟩ | ⟨-, hfull, hlimit, hreserve⟩
  · rw [hreserve] at h
    cases h
  · rw [hreserve] at h
    cases h
    exact ⟨rfl, hfits, fun _ _ _ => rfl, .inl rfl⟩
  · rw [hreserve] at h
    cases h
    have hle : o + n ≤ grownSize (o + n) := by
      rw [grownSize]
      omega
    have hsize : (b.grow (grownSize (o + n))).size = grownSize (o + n) := by
      rw [grow, size_overwrite, Array.size_replicate]
    refine ⟨rfl, ?_, fun i hi hstored => ?_, .inr ⟨hfull, b.grow _, hsize, ?_⟩⟩
    · show o + n ≤ (b.grow (grownSize (o + n))).size
      rwa [hsize]
    · exact getElem?_grow hoffset (by omega) hi hstored
    · rw [hsize]

/-! ## Buffers in use -/

/-- What may be done to a buffer. -/
inductive Use where
  | makeRoom (needed : Int)
  | put (place : Int) (byte : UInt8)
  | putWhole (place : Int) (bytes : List UInt8)
  | putText (place : Int) (text : List UInt8)
  | moveOffset (offset : Nat)
  | settle

/-- The buffer after a use. Where room is refused, or bytes do not fit as a whole, it is the buffer
before. -/
def Use.run : Use → Buffer → Buffer
  | .makeRoom needed, b => (b.reserve? needed).getD b
  | .put place byte, b => b.put place byte
  | .putWhole place bytes, b => (b.putWhole? place bytes).getD b
  | .putText place text, b => b.putAll place text
  | .moveOffset offset, b => { b with offset }
  | .settle, b => b.settle

/-- A buffer that was created, or laid over the storage of a caller, and has been in use since. -/
inductive Used : Buffer → Prop
  | created {size : Int} {budget : ByteBudget} {b : Buffer} (h : create? size budget = some b) :
    Used b
  | fixed (storage : Array UInt8) : Used (.fixed storage)
  | used (use : Use) {b : Buffer} (h : Used b) : Used (use.run b)

/-- No use moves the offset below zero. -/
theorem Use.offset_nonneg (use : Use) (h : 0 ≤ b.offset) : 0 ≤ (use.run b).offset := by
  cases use with
  | makeRoom needed =>
    show 0 ≤ ((b.reserve? needed).getD b).offset
    cases hreserve : b.reserve? needed with
    | none => exact h
    | some b' => exact (capacity_of_reserve? hreserve).1 ▸ h
  | put place byte => exact h
  | putWhole place bytes =>
    show 0 ≤ ((b.putWhole? place bytes).getD b).offset
    rw [putWhole?]
    split
    · exact h
    · exact h
  | putText place text => exact h
  | moveOffset offset => exact Int.natCast_nonneg offset
  | settle => exact Int.natCast_nonneg _

theorem Used.offset_nonneg (h : Used b) : 0 ≤ b.offset := by
  induction h with
  | created h =>
    unfold create? at h
    split at h
    · cases h
    · obtain ⟨budget, -, rfl⟩ := Option.map_eq_some_iff.1 h
      exact Int.le_refl 0
  | fixed storage => exact Int.le_refl 0
  | used use h ih => exact use.offset_nonneg ih

/-- **Room is made without loss or refused without effect**, whatever was done to the buffer before:
a request that is not refused is answered with the offset, and the bytes up to it stay; a refused
one leaves the buffer and its budget as they are. -/
theorem Used.makeRoom_exact (h : Used b) (n : Nat) :
    ∃ o : Nat, b.offset = o ∧
      (RoomRefused o n b → b.reserve? n = none ∧ makeRoom n b = .ok none b) ∧
      (¬ RoomRefused o n b →
        ∃ b', b.reserve? n = some b' ∧ makeRoom n b = .ok (some o) b' ∧ Roomy o n b b') := by
  obtain ⟨o, hoffset⟩ := Int.eq_ofNat_of_zero_le h.offset_nonneg
  have hcases := reserve?_cases hoffset n
  refine ⟨o, hoffset, fun hrefused => ?_, fun hroom => ?_⟩
  · obtain ⟨-, hreserve⟩ | ⟨hroom, -⟩ | ⟨hroom, -⟩ := hcases
    · exact ⟨hreserve, by rw [makeRoom_eq, hreserve]⟩
    · exact absurd hrefused hroom
    · exact absurd hrefused hroom
  · obtain ⟨b', hreserve⟩ : ∃ b', b.reserve? n = some b' := by
      obtain ⟨hrefused, -⟩ | ⟨-, -, hreserve⟩ | ⟨-, -, -, hreserve⟩ := hcases
      · exact absurd hrefused hroom
      · exact ⟨_, hreserve⟩
      · exact ⟨_, hreserve⟩
    exact ⟨b', hreserve, by rw [makeRoom_eq, hreserve, hoffset], roomy_of_reserve? hoffset hreserve⟩

/-- The offset lies behind the end of four bytes. For no more bytes there the buffer grows to
eighteen, which is all that one budget allows and too much for the other. -/
theorem makeRoom_exact_behind_end :
    let b (limit : Int) : Buffer := ⟨#[97, 98, 0, 0], 9, true, ⟨some limit, 4⟩⟩
    Used (b 17) ∧ makeRoom 0 (b 17) = .ok none (b 17) ∧
      Used (b 18) ∧ ∃ b', makeRoom 0 (b 18) = .ok (some 9) b' ∧ b'.capacity = 18 ∧
        b'.storage[1]? = some 98 ∧ b'.budget.granted = 22 := by
  intro b
  have hcreate (limit : Int) (hlimit : 4 ≤ limit) :
      create? 4 ⟨some limit, 0⟩ = some ⟨#[0, 0, 0, 0], 0, true, ⟨some limit, 4⟩⟩ := by
    have hgrant : ByteBudget.grant? ⟨some limit, 0⟩ 4 = some ⟨some limit, 4⟩ :=
      if_pos (decide_eq_true hlimit)
    rw [create?, if_neg (by decide), show (4 : Int).toNat = 4 from rfl, hgrant]
    rfl
  have hused (limit : Int) (hlimit : 4 ≤ limit) : Used (b limit) :=
    .used (.moveOffset 9) (.used (.putText 0 [97, 98]) (.created (hcreate limit hlimit)))
  have hoffset {limit : Int} {o : Nat} (h : (b limit).offset = o) : o = 9 :=
    (Int.ofNat_inj.1 h).symm
  refine ⟨hused 17 (by decide), ?_, hused 18 (by decide), ?_⟩
  · obtain ⟨o, ho, hrefused, -⟩ := (hused 17 (by decide)).makeRoom_exact 0
    cases hoffset ho
    exact (hrefused (.inr ⟨by decide, .inr (.inr (by decide))⟩)).2
  · obtain ⟨o, ho, -, hroom⟩ := (hused 18 (by decide)).makeRoom_exact 0
    cases hoffset ho
    obtain ⟨b', -, hmade, hroomy⟩ := hroom (by unfold RoomRefused; decide)
    rcases hroomy.accounted with rfl | ⟨-, storage, hsize, rfl⟩
    · exact absurd hroomy.room (by decide)
    · refine ⟨_, hmade, hsize, hroomy.kept 1 (by decide) (by decide), ?_⟩
      show 4 + storage.size = 22
      rw [hsize]
      rfl

end LinkedJson.Buffer
