import LinkedJson.Proofs.Writing.Places
import LinkedJson.Proofs.Writing.Printing

/-!
# Printing without a budget

Where the budget has no limit, a buffer refuses room only beyond the greatest length that storage
can have (`Unbounded.reserve?_eq_none_iff`). So a run of pieces stops at its first fault, after all
the text in front of it, or where the text is too long. How large the buffer was at first and when
it grew makes no difference: printing gives the text of the tree, or the first faulty place
(`JsonTree.print_eq_render`).
-/

namespace LinkedJson

namespace Buffer

/-- A growable buffer with a budget that has no limit. -/
structure Unbounded (b : Buffer) : Prop where
  growable : b.growable = true
  limit : b.budget.limit = none
  capacity_le : b.capacity ≤ greatestLength

theorem Unbounded.putAll {b : Buffer} (h : Unbounded b) (start : Int) (bytes : List UInt8) :
    Unbounded (b.putAll start bytes) := by
  refine ⟨h.growable, h.limit, ?_⟩
  rw [capacity, Buffer.putAll, size_overwrite]
  exact h.capacity_le

theorem grant?_of_limit_eq_none {budget : ByteBudget} (h : budget.limit = none) (size : Nat) :
    budget.grant? size = some { budget with granted := budget.granted + size } := by
  rw [ByteBudget.grant?, ByteBudget.allows, h]
  rfl

theorem Unbounded.reserve?_eq_none_iff {b : Buffer} {out : List UInt8} {needed : Nat}
    (h : Unbounded b) (hsettled : Settled b out) :
    b.reserve? needed = none ↔ greatestLength < out.length + needed := by
  have hcapacity := h.capacity_le
  unfold reserve?
  simp only [hsettled.offset_eq, h.growable, grant?_of_limit_eq_none h.limit, not_true_eq_false,
    false_or]
  split
  · exact iff_of_true rfl (by omega)
  · split
    · exact iff_of_false (Option.some_ne_none b) (by omega)
    · split
      · exact iff_of_true rfl (by omega)
      · exact iff_of_false (Option.some_ne_none _) (by omega)

theorem Unbounded.reserve? {b b' : Buffer} {needed : Int} (h : Unbounded b)
    (hreserve : b.reserve? needed = some b') : Unbounded b' := by
  unfold Buffer.reserve? at hreserve
  dsimp only at hreserve
  rw [grant?_of_limit_eq_none h.limit] at hreserve
  split at hreserve
  · cases hreserve
  · split at hreserve
    · cases hreserve
      exact h
    · split at hreserve
      · cases hreserve
      · cases hreserve
        refine ⟨h.growable, h.limit, ?_⟩
        rw [capacity, grow, size_overwrite, Array.size_replicate, grownSize]
        exact Nat.min_le_right ..

end Buffer

open Buffer

namespace Writing

variable {b b' : Buffer} {out : List UInt8}

/-! ## Runs of pieces -/

theorem put_of_le {text : List UInt8} (h : Settled b out) (hb : Unbounded b)
    (hroom : out.length + (text.length + 1) ≤ greatestLength) :
    ∃ b', put text b = .ok b' ∧ Unbounded b'.settle := by
  rw [put, write?]
  cases hreserve : b.reserve? ((text.length + 1 : Nat) : Int) with
  | none =>
    have := (hb.reserve?_eq_none_iff h).1 hreserve
    omega
  | some b₁ =>
    have hgrown := (hb.reserve? hreserve).putAll b₁.offset (text ++ [0])
    exact ⟨_, rfl, hgrown.growable, hgrown.limit, hgrown.capacity_le⟩

theorem put_of_lt {text : List UInt8} (h : Settled b out) (hb : Unbounded b)
    (hroom : greatestLength < out.length + (text.length + 1)) :
    put text b = .error (.growthRefused, b) := by
  rw [put, write?, (hb.reserve?_eq_none_iff h).2 hroom, Option.map_none]
  show noRoom b = _
  rw [noRoom, hb.growable, if_pos rfl]

/-- As long as the text is not too long, a run stops only at a fault. -/
theorem run_of_lt {ps : List Piece} (h : Settled b out) (hb : Unbounded b)
    (hzero : ∀ p ∈ ps, p.ZeroFree)
    (hroom : out.length + (Piece.written ps).length < greatestLength) :
    match Piece.fault? ps with
    | none => ∃ b', run ps b = .ok b'
    | some f => ∃ b', run ps b = .error (f, b') ∧
        b'.offset = (out.length + (Piece.written ps).length : Nat) := by
  induction ps generalizing b out with
  | nil => exact ⟨b, rfl⟩
  | cons p ps ih =>
    cases p with
    | fault f => exact ⟨b, rfl, h.offset_eq⟩
    | text bytes =>
      rw [Piece.written, List.length_append] at hroom
      obtain ⟨hbytes, hps⟩ := List.forall_mem_cons.1 hzero
      have hlength : out.length + (bytes.length + 1) ≤ greatestLength := by omega
      obtain ⟨b₁, hput, hb₁⟩ := put_of_le h hb hlength
      have hsettled := (put_ok h hbytes hput).settle
      have hrest := ih hsettled hb₁ hps (by rw [List.length_append]; omega)
      rw [Piece.fault?, run, hput, Piece.written]
      rwa [List.length_append, Nat.add_assoc, ← List.length_append] at hrest

/-- A run whose text is too long is refused room. -/
theorem run_of_le {ps : List Piece} (h : Settled b out) (hb : Unbounded b)
    (hzero : ∀ p ∈ ps, p.ZeroFree) (hstart : out.length < greatestLength)
    (hlong : greatestLength ≤ out.length + (Piece.written ps).length) :
    ∃ b', run ps b = .error (.growthRefused, b') := by
  induction ps generalizing b out with
  | nil =>
    rw [Piece.written, List.length_nil] at hlong
    omega
  | cons p ps ih =>
    cases p with
    | fault f =>
      rw [Piece.written, List.length_nil] at hlong
      omega
    | text bytes =>
      rw [Piece.written, List.length_append] at hlong
      obtain ⟨hbytes, hps⟩ := List.forall_mem_cons.1 hzero
      rw [run]
      by_cases hroom : out.length + (bytes.length + 1) ≤ greatestLength
      · obtain ⟨b₁, hput, hb₁⟩ := put_of_le h hb hroom
        rw [hput]
        exact ih (put_ok h hbytes hput).settle hb₁ hps (by rw [List.length_append]; omega)
          (by rw [List.length_append]; omega)
      · rw [put_of_lt h hb (by omega)]
        exact ⟨b, rfl⟩

end Writing

namespace JsonTree

/-! ## Printing -/

theorem unbounded_create? {size : Int} {budget : ByteBudget} (hsize : 0 ≤ size ∧ size ≤ greatestLength)
    (hbudget : budget.limit = none) :
    ∃ b, Buffer.create? size budget = some b ∧ Unbounded b := by
  rw [Buffer.create?, if_neg (by omega), grant?_of_limit_eq_none hbudget]
  refine ⟨_, rfl, rfl, hbudget, ?_⟩
  rw [Buffer.capacity, Array.size_replicate]
  omega

variable {options : WriteOptions} {budget : ByteBudget} {t : JsonTree}

theorem print_of_run_ok {b b' : Buffer} (hcreate : Buffer.create? options.sizeHint budget = some b)
    (hrun : Writing.run (t.pieces options 0) b = .ok b') :
    (t.print options budget).1 = .ok b'.text := by
  rw [print, hcreate]
  simp only [document_eq options t (settled_create? hcreate), hrun]

theorem print_of_run_error {b b' : Buffer} {f : WriteFault}
    (hcreate : Buffer.create? options.sizeHint budget = some b)
    (hrun : Writing.run (t.pieces options 0) b = .error (f, b')) :
    (t.print options budget).1 = .error ⟨f, b'.offset.toNat⟩ := by
  rw [print, hcreate]
  simp only [document_eq options t (settled_create? hcreate), hrun]
  rfl

/-- Without a budget, printing fails if there is a fault, after the text in front of it. -/
theorem print_of_fault {f : WriteFault}
    (hhint : 0 ≤ options.sizeHint ∧ options.sizeHint ≤ greatestLength)
    (hbudget : budget.limit = none) (hfault : Piece.fault? (t.pieces options 0) = some f)
    (hroom : (Piece.written (t.pieces options 0)).length < greatestLength) :
    (t.print options budget).1 = .error ⟨f, (Piece.written (t.pieces options 0)).length⟩ := by
  obtain ⟨b, hcreate, hb⟩ := unbounded_create? hhint hbudget
  have hrun := Writing.run_of_lt (settled_create? hcreate) hb (zeroFree_pieces options 0 t) (by
    rwa [List.length_nil, Nat.zero_add])
  rw [hfault] at hrun
  obtain ⟨b', hrun, hoffset⟩ := hrun
  rw [print_of_run_error hcreate hrun, hoffset, Int.toNat_natCast, List.length_nil, Nat.zero_add]

theorem exists_print_of_fault?_eq_none
    (hhint : 0 ≤ options.sizeHint ∧ options.sizeHint ≤ greatestLength)
    (hbudget : budget.limit = none) (hfault : Piece.fault? (t.pieces options 0) = none)
    (hroom : (t.render options.pretty 0).length < greatestLength) :
    ∃ s, (t.print options budget).1 = .ok s := by
  obtain ⟨b, hcreate, hb⟩ := unbounded_create? hhint hbudget
  have hrun := Writing.run_of_lt (settled_create? hcreate) hb (zeroFree_pieces options 0 t) (by
    rwa [List.length_nil, Nat.zero_add, written_pieces options 0 t hfault])
  rw [hfault] at hrun
  obtain ⟨b', hrun⟩ := hrun
  exact ⟨_, print_of_run_ok hcreate hrun⟩

theorem print_of_tooLong
    (hhint : 0 ≤ options.sizeHint ∧ options.sizeHint ≤ greatestLength)
    (hbudget : budget.limit = none)
    (hlong : greatestLength ≤ (Piece.written (t.pieces options 0)).length) :
    ∃ k, (t.print options budget).1 = .error ⟨.growthRefused, k⟩ := by
  obtain ⟨b, hcreate, hb⟩ := unbounded_create? hhint hbudget
  obtain ⟨b', hrun⟩ := Writing.run_of_le (settled_create? hcreate) hb (zeroFree_pieces options 0 t)
    (by rw [List.length_nil, greatestLength]; decide) (by rwa [List.length_nil, Nat.zero_add])
  exact ⟨_, print_of_run_error hcreate hrun⟩

/-- **Printing without a budget gives the text of the tree, whatever the first size of the buffer.**
It succeeds if there is a fault at no place of the tree and the text is not longer than storage can
be, and what it gives is the text of the tree. A fault is that of the first faulty place, in front
of whose node the text of the tree has as many bytes as are reported. Only for a text that is too
long for any storage room is refused. -/
theorem print_eq_render (options : WriteOptions) (budget : ByteBudget) (t : JsonTree)
    (hhint : 0 ≤ options.sizeHint ∧ options.sizeHint ≤ greatestLength)
    (hbudget : budget.limit = none) :
    ((∃ s, (t.print options budget).1 = .ok s) ↔
      (∀ p ∈ t.places options.pretty 0 [], p.fault? options.maxDepth = none) ∧
        (t.render options.pretty 0).length < greatestLength) ∧
    (∀ s, (t.print options budget).1 = .ok s → Utf8.encode s = t.render options.pretty 0) ∧
    (∀ front p rest f, t.places options.pretty 0 [] = front ++ p :: rest →
      (∀ q ∈ front, q.fault? options.maxDepth = none) → p.fault? options.maxDepth = some f →
      (∃ after, t.render options.pretty 0 =
        p.before ++ (p.node.render options.pretty p.depth ++ after)) ∧
      (p.before.length < greatestLength →
        (t.print options budget).1 = .error ⟨f, p.before.length⟩) ∧
      (greatestLength ≤ p.before.length →
        ∃ k, (t.print options budget).1 = .error ⟨.growthRefused, k⟩)) ∧
    ((∀ p ∈ t.places options.pretty 0 [], p.fault? options.maxDepth = none) →
      greatestLength ≤ (t.render options.pretty 0).length →
      ∃ k, (t.print options budget).1 = .error ⟨.growthRefused, k⟩) := by
  have htooLong (hnone : Piece.fault? (t.pieces options 0) = none)
      (hlong : greatestLength ≤ (t.render options.pretty 0).length) :
      ∃ k, (t.print options budget).1 = .error ⟨.growthRefused, k⟩ := by
    rw [← written_pieces options 0 t hnone] at hlong
    exact print_of_tooLong hhint hbudget hlong
  refine ⟨⟨?_, ?_⟩, fun s hs => (of_print hs).1, ?_, ?_⟩
  · rintro ⟨s, hs⟩
    obtain ⟨-, -, -, -, hnone, -⟩ := exists_settled_of_print hs
    refine ⟨fault?_pieces_eq_none_iff.1 hnone, Nat.lt_of_not_le fun hlong => ?_⟩
    obtain ⟨k, hk⟩ := htooLong hnone hlong
    rw [hk] at hs
    cases hs
  · rintro ⟨hplaces, hroom⟩
    exact exists_print_of_fault?_eq_none hhint hbudget (fault?_pieces_eq_none_iff.2 hplaces) hroom
  · intro front p rest f hplaces hfront hfault
    obtain ⟨hfirst, hbefore⟩ := fault?_pieces_of_places hplaces hfront hfault
    refine ⟨?_, fun hroom => ?_, fun hlong => ?_⟩
    · have hmem : p ∈ t.places options.pretty 0 [] := by
        rw [hplaces]
        exact List.mem_append_right front List.mem_cons_self
      exact render_eq_of_mem_places t hmem
    · rw [← hbefore] at hroom ⊢
      exact print_of_fault hhint hbudget hfirst hroom
    · rw [← hbefore] at hlong
      exact print_of_tooLong hhint hbudget hlong
  · exact fun hplaces hlong => htooLong (fault?_pieces_eq_none_iff.2 hplaces) hlong

/-- The inner array stands too deep, behind the six bytes `[null,`; the buffer starts out empty. -/
theorem print_eq_render_inner_array :
    (print ⟨false, 0, 1⟩ .unlimited (.array .none [.scalar .none .null, .array .none []])).1 =
      .error ⟨.nestingTooDeep 1, 6⟩ := by
  obtain ⟨-, -, hfault, -⟩ := print_eq_render ⟨false, 0, 1⟩ .unlimited
    (.array .none [.scalar .none .null, .array .none []]) ⟨Int.le_refl 0, Int.natCast_nonneg _⟩ rfl
  refine (hfault [⟨0, [], .array .none [.scalar .none .null, .array .none []]⟩,
    ⟨1, Utf8.encode "[", .scalar .none .null⟩] ⟨1, Utf8.encode "[null,", .array .none []⟩ [] _ rfl ?_
    rfl).2.1 ?_
  · simp [Place.fault?]
  · rw [greatestLength]
    decide

end JsonTree

end LinkedJson
