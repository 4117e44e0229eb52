import LinkedJson.Proofs.Writing.Pieces

/-!
# What a writer has written

Pieces without a fault come from a tree that nests no deeper than the limit
(`JsonTree.nesting_le_of_fault?`), so what is printed is the text of such a tree
(`JsonTree.of_print`). It is not longer than storage can be (`JsonTree.length_render_lt_of_print`).
-/

namespace LinkedJson.JsonTree

open Buffer

mutual

/-- A tree whose pieces hold no fault nests within the limit. -/
theorem nesting_le_of_fault? {options : WriteOptions} {depth : Nat} :
    ∀ t : JsonTree, Piece.fault? (t.pieces options depth) = none →
      t.nesting ≤ (options.maxDepth - depth).toNat
  | scalar _ _, _ => Nat.zero_le _
  | array _ ts, h => by
    rw [pieces] at h
    split at h
    · cases h
    · rename_i hdepth
      rw [nesting]
      cases ts with
      | nil =>
        rw [nestings]
        omega
      | cons t ts =>
        rw [List.isEmpty_cons, if_neg Bool.false_ne_true, Piece.fault?, Piece.fault?_append,
          Option.or_eq_none_iff] at h
        have hitems := nestings_le_of_fault?_itemPieces (t :: ts) h.1
        omega
  | object _ ts, h => by
    rw [pieces] at h
    split at h
    · cases h
    · rename_i hdepth
      rw [nesting]
      cases ts with
      | nil =>
        rw [nestings]
        omega
      | cons t ts =>
        rw [List.isEmpty_cons, if_neg Bool.false_ne_true, Piece.fault?, Piece.fault?_append,
          Option.or_eq_none_iff] at h
        have hmembers := nestings_le_of_fault?_memberPieces (t :: ts) h.1
        omega
  | reference _ target, h => nesting_le_of_fault? target h

theorem nestings_le_of_fault?_itemPieces {options : WriteOptions} {depth : Nat} :
    ∀ ts : List JsonTree, Piece.fault? (itemPieces options depth ts) = none →
      nestings ts ≤ (options.maxDepth - depth).toNat
  | [], _ => Nat.zero_le _
  | t :: ts, h => by
    rw [itemPieces, Piece.fault?_append, Option.or_eq_none_iff, Piece.fault?_append,
      Piece.fault?_ofSome, Option.none_or] at h
    exact Nat.max_le.2 ⟨nesting_le_of_fault? t h.1, nestings_le_of_fault?_itemPieces ts h.2⟩

theorem nestings_le_of_fault?_memberPieces {options : WriteOptions} {depth : Nat} :
    ∀ ts : List JsonTree, Piece.fault? (memberPieces options depth ts) = none →
      nestings ts ≤ (options.maxDepth - depth).toNat
  | [], _ => Nat.zero_le _
  | t :: ts, h => by
    rw [memberPieces, Piece.fault?_append, Piece.fault?_ofSome, Option.none_or, Piece.fault?,
      Piece.fault?, Piece.fault?_append, Option.or_eq_none_iff, Piece.fault?_append,
      Piece.fault?_ofSome, Option.none_or] at h
    exact Nat.max_le.2 ⟨nesting_le_of_fault? t h.1, nestings_le_of_fault?_memberPieces ts h.2⟩

end

/-! ## Printing -/

theorem settled_create? {size : Int} {budget : ByteBudget} {b : Buffer}
    (h : Buffer.create? size budget = some b) : Settled b [] := by
  unfold Buffer.create? at h
  split at h
  · cases h
  · obtain ⟨budget', -, rfl⟩ := Option.map_eq_some_iff.1 h
    exact ⟨rfl, List.nil_prefix⟩

theorem encode_text_of_settled {b : Buffer} {out : List UInt8} (h : Settled b out)
    (hout : Utf8.WellFormed out) : Utf8.encode b.text = out := by
  obtain ⟨s, rfl⟩ := hout
  rw [Buffer.text, Buffer.written, h.offset_eq, Buffer.before_natCast, h.eq_take,
    Utf8.decodeLossy_encode]

/-- A document is written as the pieces of its tree are. -/
theorem document_eq {b : Buffer} (options : WriteOptions) (t : JsonTree) (h : Settled b []) :
    Writing.document options t b = Writing.run (t.pieces options 0) b :=
  Writing.tree_eq options t h

/-- What is printed comes from pieces without a fault, and is their text. -/
theorem exists_settled_of_print {options : WriteOptions} {budget : ByteBudget} {t : JsonTree}
    {s : String} (h : (t.print options budget).1 = .ok s) :
    ∃ b b' : Buffer, Writing.run (t.pieces options 0) b = .ok b' ∧ b'.text = s ∧
      Piece.fault? (t.pieces options 0) = none ∧ Settled b' (t.render options.pretty 0) := by
  unfold print at h
  split at h
  · cases h
  · rename_i b hcreate
    have hempty := settled_create? hcreate
    rw [document_eq options t hempty] at h
    split at h
    · rename_i b' hrun
      cases h
      obtain ⟨hfault, hsettled⟩ := Writing.run_ok hempty (zeroFree_pieces options 0 t) hrun
      rw [written_pieces options 0 t hfault, List.nil_append] at hsettled
      exact ⟨b, b', hrun, rfl, hfault, hsettled⟩
    · cases h

/-- **What is printed is the text of the tree**, which nests within the limit. -/
theorem of_print {options : WriteOptions} {budget : ByteBudget} {t : JsonTree} {s : String}
    (h : (t.print options budget).1 = .ok s) :
    Utf8.encode s = t.render options.pretty 0 ∧ t.nesting ≤ options.maxDepth.toNat := by
  obtain ⟨b, b', -, rfl, hfault, hsettled⟩ := exists_settled_of_print h
  refine ⟨encode_text_of_settled hsettled (wellFormed_render _ _ t), ?_⟩
  simpa using nesting_le_of_fault? t hfault

end LinkedJson.JsonTree

namespace LinkedJson

/-! ## Room -/

theorem greatestLength_pos : 0 < greatestLength := by
  rw [greatestLength]
  decide

namespace Writing

open Buffer

theorem capacity_le_of_create? {size : Int} {budget : ByteBudget} {b : Buffer}
    (h : create? size budget = some b) : b.capacity ≤ greatestLength := by
  unfold create? at h
  split at h
  · cases h
  · obtain ⟨budget', -, rfl⟩ := Option.map_eq_some_iff.1 h
    rw [capacity, Array.size_replicate]
    omega

theorem capacity_le_of_reserve? {b b' : Buffer} {needed : Int}
    (hcapacity : b.capacity ≤ greatestLength) (h : b.reserve? needed = some b') :
    b'.capacity ≤ greatestLength := by
  unfold reserve? at h
  dsimp only at h
  split at h
  · cases h
  · split at h
    · cases h
      exact hcapacity
    · split at h
      · cases h
      · obtain ⟨budget, -, rfl⟩ := Option.map_eq_some_iff.1 h
        rw [capacity, grow, size_overwrite, Array.size_replicate, grownSize]
        exact Nat.min_le_right ..

theorem capacity_le_of_put {b b' : Buffer} {text : List UInt8}
    (hcapacity : b.capacity ≤ greatestLength) (h : put text b = .ok b') :
    b'.capacity ≤ greatestLength := by
  unfold put at h
  split at h
  · cases h
  · rename_i hwrite
    cases h
    obtain ⟨b₁, hreserve, rfl⟩ := Option.map_eq_some_iff.1 hwrite
    rw [capacity, putAll, size_overwrite]
    exact capacity_le_of_reserve? hcapacity hreserve

/-- Whatever the budget is, a text that is written is not longer than storage can be. -/
theorem length_written_lt_of_run {b b' : Buffer} {out : List UInt8} {ps : List Piece}
    (h : Settled b out) (hcapacity : b.capacity ≤ greatestLength)
    (hout : out.length < greatestLength) (hzero : ∀ p ∈ ps, p.ZeroFree)
    (hrun : run ps b = .ok b') :
    out.length + (Piece.written ps).length < greatestLength := by
  induction ps generalizing b out with
  | nil => exact hout
  | cons p ps ih =>
    cases p with
    | fault f => cases hrun
    | text bytes =>
      obtain ⟨hbytes, hps⟩ := List.forall_mem_cons.1 hzero
      obtain ⟨b₁, hput, hrest⟩ := bind_eq_ok_iff.1 hrun
      have hpending := put_ok h hbytes hput
      have hcapacity₁ := capacity_le_of_put hcapacity hput
      -- the zero byte behind the text is inside of the storage too
      have hroom := hpending.storage.length_le
      simp only [List.length_append, List.length_singleton] at hroom
      have hout₁ : (out ++ bytes).length < greatestLength := by
        have hsize : b₁.storage.toList.length = b₁.capacity := Array.length_toList
        rw [List.length_append]
        omega
      have := ih hpending.settle hcapacity₁ hout₁ hps hrest
      rwa [Piece.written, List.length_append, ← Nat.add_assoc, ← List.length_append]

end Writing

namespace JsonTree

/-- Whatever the budget is, what is printed is not longer than storage can be. -/
theorem length_render_lt_of_print {options : WriteOptions} {budget : ByteBudget} {t : JsonTree}
    {s : String} (h : (t.print options budget).1 = .ok s) :
    (t.render options.pretty 0).length < greatestLength := by
  unfold print at h
  split at h
  · cases h
  · rename_i b hcreate
    have hempty := settled_create? hcreate
    rw [document_eq options t hempty] at h
    split at h
    · rename_i b' hrun
      have hzero := zeroFree_pieces options 0 t
      have hfault := (Writing.run_ok hempty hzero hrun).1
      have hlt := Writing.length_written_lt_of_run hempty (Writing.capacity_le_of_create? hcreate)
        greatestLength_pos hzero hrun
      rwa [List.length_nil, Nat.zero_add, written_pieces options 0 t hfault] at hlt
    · cases h

end JsonTree

end LinkedJson
