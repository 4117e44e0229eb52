import LinkedJson.Proofs.Reading.Advances
import LinkedJson.Proofs.Reading.InPlace
import LinkedJson.Proofs.Store.ReadNodes

/-!
# How many nodes a text asks for

Each node that is taken while a text is read is paid for with two bytes of it, so half of the bytes,
rounded up, are enough nodes for every text of that length, read or not. Over a store this bounds
the nodes at every moment (`Session.moments`), the nodes of the tree that is read, and the room that
an arena has to have so that it never refuses a node (`Session.parse_node_demand`).
-/

namespace LinkedJson

/-! ## Counting nodes -/

namespace Builder

variable {σ ν κ : Type} {b : Builder σ ν κ} {size : σ → Nat}

theorem Counts.le_of_moves (laws : b.Counts size) {s s' : σ} (h : b.Moves s s') :
    size s ≤ size s' := by
  cases h with
  | scalar h => exact (laws.scalar h).symm ▸ Nat.le_succ _
  | array h => exact (laws.array h).symm ▸ Nat.le_succ _
  | object h => exact (laws.object h).symm ▸ Nat.le_succ _
  | push => exact (laws.push ..).ge
  | rename => exact (laws.rename ..).ge
  | abandon => exact (laws.abandon ..).ge
  | discard => exact (laws.discard ..).ge

/-- Nodes that are taken stay counted, so no state counts more than the last one. -/
theorem Counts.size_le_of_mem_states (laws : b.Counts size) {options : ReadOptions}
    {bytes : List UInt8} {s u : σ} (h : u ∈ (b.trace options bytes s).states) :
    size u ≤ size (b.read options bytes s).2 := by
  have keeps : b.Keeps fun t t' => size t.state ≤ size t'.state ∧
      ∀ u ∈ t'.states, u ∈ t.states ∨ size u ≤ size t'.state := by
    refine ⟨fun t => ⟨Nat.le_refl _, fun u hu => .inl hu⟩, ?_, ?_, ?_⟩
    · rintro t t' t'' ⟨hle, hbefore⟩ ⟨hle', hbefore'⟩
      refine ⟨hle.trans hle', fun u hu => ?_⟩
      rcases hbefore' u hu with hu | hu
      · exact (hbefore u hu).imp_right fun hu => hu.trans hle'
      · exact .inr hu
    · intro t s' hmove
      refine ⟨laws.le_of_moves hmove, fun u hu => ?_⟩
      rcases List.mem_append.1 hu with hu | hu
      · exact .inl hu
      · cases List.mem_singleton.1 hu
        exact .inr (Nat.le_refl _)
    · exact fun t around text => ⟨Nat.le_refl _, fun u hu => .inl hu⟩
  obtain ⟨hle, hbefore⟩ := trace_retains keeps options bytes s
  rw [state_trace] at hle hbefore
  rcases hbefore u h with hu | hu
  · cases List.mem_singleton.1 hu
    exact hle
  · exact hu

end Builder

namespace JsonTree

/-- The builder of trees counts the values that are complete. -/
theorem builder_counts : (JsonTree.builder none).Counts id where
  scalar h := by cases h; rfl
  array h := by cases h; rfl
  object h := by cases h; rfl
  push _ _ _ := rfl
  rename _ _ _ := rfl
  abandon _ _ := rfl
  discard _ _ := rfl

theorem builder_not_refuses : ¬ (JsonTree.builder none).Refuses := by
  rintro ⟨s, ⟨v, h⟩ | ⟨k, h⟩ | ⟨k, h⟩⟩ <;> cases h

theorem nodeCounts_reverse (ts : List JsonTree) : nodeCounts ts.reverse = nodeCounts ts := by
  induction ts with
  | nil => rfl
  | cons t ts ih =>
    rw [List.reverse_cons, nodeCounts_append, ih, nodeCounts, nodeCounts, nodeCounts]
    omega

/-- What is counted is what the tree holds. -/
theorem builder_effects : (JsonTree.builder none).Effects (fun n n' t => n' = n + t.nodeCount)
    (fun n n' ts => n' = n + nodeCounts ts) (fun _ _ => True) where
  refl _ := trivial
  scalar h := by cases h; rfl
  childless _ := rfl
  push := by
    rintro n n₁ n₂ ts t rfl rfl
    show n + nodeCounts ts + t.nodeCount = n + (t.nodeCount + nodeCounts ts)
    omega
  rename := by
    rintro n n₁ t name rfl
    exact congrArg (n + ·) (t.nodeCount_withLabel _).symm
  array := by
    rintro n n₁ ts t n₂ rfl h
    cases h
    rw [nodeCount, nodeCounts_reverse, Nat.add_assoc]
  object := by
    rintro n n₁ ts t n₂ rfl h
    cases h
    rw [nodeCount, nodeCounts_reverse, Nat.add_assoc]
  abandon _ _ := trivial
  discard _ := trivial

end JsonTree

/-- A tree has no more nodes than half of the bytes up to its end, rounded up. -/
theorem Document.nodeCount_le {options : ReadOptions} {bytes : List UInt8} {d : Document}
    (h : Document.read options none bytes = .ok d) : 2 * d.tree.nodeCount ≤ d.stop + 1 := by
  unfold Document.read at h
  rcases hread : (JsonTree.builder none).read options bytes 0 with ⟨e | ⟨tree, stop⟩, built⟩
  · rw [hread] at h
    cases h
  · rw [hread] at h
    cases h
    obtain ⟨-, -, hdemand, -⟩ := Builder.read_demand JsonTree.builder_counts options bytes 0
    have hbuilt := (Builder.read_effect JsonTree.builder_effects options bytes 0).1 _ _ _ hread
    have hle := hdemand _ _ _ hread
    simp only [id, hbuilt, Nat.zero_add] at hle
    show 2 * tree.nodeCount ≤ stop + 1
    omega

/-- Trees are not refused. -/
theorem Document.code_ne_of_read {options : ReadOptions} {bytes : List UInt8} {e : ReadFailure}
    (h : Document.read options none bytes = .error e) : e.fault.code ≠ .allocationFailure := by
  intro hcode
  unfold Document.read at h
  obtain ⟨-, -, -, hrefuses⟩ := Builder.read_demand JsonTree.builder_counts options bytes 0
  rcases hread : ((JsonTree.builder none).read options bytes 0).1 with e' | p
  · rw [hread] at h
    cases h
    exact JsonTree.builder_not_refuses (hrefuses e hread hcode)
  · rw [hread] at h
    cases h

namespace Store

/-- The cells of a store count the nodes that were ever taken. -/
theorem builder_counts : builder.Counts (·.cells.size) where
  scalar h := by
    obtain ⟨-, -, rfl⟩ := create?_eq_some_iff.1 h
    exact size_adopt ..
  array h := by
    obtain ⟨-, -, rfl⟩ := create?_eq_some_iff.1 h
    exact size_adopt ..
  object h := by
    obtain ⟨-, -, rfl⟩ := create?_eq_some_iff.1 h
    exact size_adopt ..
  push := size_push
  rename _ _ _ := size_modify ..
  abandon _ s := size_releaseTo s.cells.size _ s
  discard _ s := size_releaseTo s.cells.size _ s

/-- No more values are complete than half of the bytes, rounded up. -/
theorem length_completions_le (options : ReadOptions) (bytes : List UInt8) :
    2 * (Document.completions options bytes).length ≤ (content bytes).length + 1 := by
  obtain ⟨-, hdemand, -⟩ := Builder.read_demand builder_counts options bytes (empty none)
  have hsize := size_read options bytes (empty none) rfl
  change 2 * ((empty none).read options bytes).2.cells.size ≤ _ at hdemand
  rw [hsize] at hdemand
  simp only [empty, List.size_toArray, List.length_nil] at hdemand
  omega

/-- An arena with room for half of the bytes refuses no node. -/
theorem code_ne_of_read {options : ReadOptions} {bytes : List UInt8} {s : Store}
    (hroom : ∀ a ∈ s.arena, ∀ M ∈ a.maxNodes,
      (a.live.length + ((content bytes).length + 1) / 2 : Nat) ≤ M)
    {e : ReadFailure} (h : (s.read options bytes).1 = .error e) :
    e.fault.code ≠ .allocationFailure := by
  obtain ⟨cells, arena⟩ := s
  have hheap : (read options bytes ⟨cells, none⟩).1 = .error e := by
    cases arena with
    | none => exact h
    | some a =>
      rcases read_withArena options bytes ⟨cells, none⟩ rfl a with
        ⟨hresult, -⟩ | ⟨M, hM, offset, hoffset, -⟩
      · exact hresult.symm.trans h
      · have hlength := (List.getElem?_eq_some_iff.1 hoffset).1
        have hle := length_completions_le options bytes
        have hroom := hroom a rfl M hM
        omega
  rcases read_eq options bytes (s := ⟨cells, none⟩) rfl with
    ⟨root, stop, t, hread, -⟩ | ⟨e', t, hread, hdocument⟩
  · rw [hread] at hheap
    cases hheap
  · rw [hread] at hheap
    cases hheap
    exact Document.code_ne_of_read hdocument

end Store

/-- A reader in place leaves no choice to the readers of texts that end like it. -/
theorem InPlace.Agrees.unique {σ α : Type} {bytes : List UInt8} {stop i : Nat}
    {x : PlaceReading σ (α × Place σ)} {y z : Reading σ (α × Cursor σ)}
    (hy : Agrees bytes stop i x y) (hz : Agrees bytes stop i x z) : y = z := by
  cases hy with
  | ok _ hat =>
    cases hz with
    | ok _ hat' => rw [← hat.left, ← hat'.left]
  | error hat =>
    cases hz with
    | error hat' => rw [← hat.left, ← hat'.left]

/-! ## Sessions -/

namespace Session

/-- The stores that reading a document goes through, from the first to the last. -/
def moments (options : ReadOptions) (bytes : List UInt8) (s : Session) : List Store :=
  (Store.builder.trace options bytes s.store).states

/-- The offsets at which reading a document begins values, in the order in which it does. -/
def begun (options : ReadOptions) (bytes : List UInt8) (s : Session) : List Nat :=
  (Store.builder.trace options bytes s.store).begun.map (offsetOf (content bytes))

/-- What reading a document asks for, by the number of bytes before the first zero byte. -/
structure NodeDemand (options : ReadOptions) (bytes : List UInt8) (s : Session) : Prop where
  /-- Every value that is read takes a byte at least. -/
  consumes : ∀ {limits : ReadLimits} {levels : Nat} {c c' : Cursor Store} {node : NodeId},
    Reading.value Store.builder limits levels c = .ok (node, c') → c'.rest.length < c.rest.length
  /-- Each value is begun behind the first byte of the one before, so there is an end to them. -/
  ordered : (s.begun options bytes).Pairwise (· < ·)
  length_begun_le : (s.begun options bytes).length ≤ (content bytes).length + 1
  /-- No loop over items ends for its bound: it ends in the same way without one. -/
  unbounded : ∀ m ≥ (content bytes).length,
    Reading.document Store.builder ⟨options.maxDepth, m⟩ options.whole (content bytes) s.store =
      Reading.document Store.builder ⟨options.maxDepth, (content bytes).length⟩ options.whole
        (content bytes) s.store
  /-- The moments are the states of one run, from the store before it to the store behind it. -/
  run : (s.moments options bytes).head? = some s.store ∧
    (s.moments options bytes).IsChain Store.builder.Moves ∧
      (s.moments options bytes).getLast? = some (s.parse options bytes).2.store
  /-- At every moment half of the bytes, rounded up, have been enough nodes. -/
  size_le : ∀ t ∈ s.moments options bytes,
    t.cells.size ≤ s.store.cells.size + ((content bytes).length + 1) / 2
  /-- An arena with room for so many nodes refuses none. -/
  not_refused : (∀ a ∈ s.store.arena, ∀ M ∈ a.maxNodes,
      (a.live.length + ((content bytes).length + 1) / 2 : Nat) ≤ M) →
    ∀ e, (s.parse options bytes).1 = .error e → e.fault.code ≠ .allocationFailure
  /-- The tree that is read has no more nodes than half of the bytes up to its own end, which is
  told if nothing is asked of what follows. -/
  nodeCount_le : ∀ root stop t, s.parse options bytes = (.ok (root, stop), t) →
    ∃ front ≤ stop, s.parse { options with whole := false } bytes = (.ok (root, front), t) ∧
      (t.store.tree root).nodeCount ≤ (front + 1) / 2

theorem begun_sorted (options : ReadOptions) (bytes : List UInt8) (s : Session) :
    (s.begun options bytes).Pairwise (· < ·) := by
  obtain ⟨hsorted, -⟩ := Builder.read_demand Store.builder_counts options bytes s.store
  exact List.pairwise_map.2 hsorted.offsets

/-- **Reading comes to an end, and half of the bytes are enough nodes for it.** This holds of every
text, whether or not it is a document, under all options and over every arena. -/
theorem parse_node_demand (options : ReadOptions) (bytes : List UInt8) (s : Session) :
    s.NodeDemand options bytes where
  consumes {limits levels c c' node} h := by
    obtain ⟨depth, m⟩ := limits
    obtain ⟨word, hword, htakes⟩ := Reading.value_exact levels h
    rw [hword, List.length_append]
    exact Nat.lt_add_of_pos_left (List.length_pos_iff.2 htakes.ne_nil)
  ordered := begun_sorted options bytes s
  length_begun_le := by
    have hnodup : (s.begun options bytes).Nodup := (begun_sorted options bytes s).imp Nat.ne_of_lt
    have hsubset : s.begun options bytes ⊆ List.range ((content bytes).length + 1) := by
      intro i hi
      obtain ⟨e, -, rfl⟩ := List.mem_map.1 hi
      exact List.mem_range.2 (Nat.lt_succ_of_le (Nat.sub_le ..))
    have hle := (List.subperm_of_subset hnodup hsubset).length_le
    rwa [List.length_range] at hle
  unbounded m hm := by
    have hat : InPlace.At bytes (content bytes).length 0 (content bytes) := ⟨rfl, Nat.zero_add _⟩
    exact (InPlace.document_agrees Store.builder options.maxDepth le_rfl hm hat options.whole
      s.store).unique (InPlace.document_agrees _ _ le_rfl le_rfl hat _ _)
  run := by
    rw [(parse_eq options bytes s).2]
    exact Builder.states_trace Store.builder options bytes s.store
  size_le t ht := by
    have hle := Store.builder_counts.size_le_of_mem_states ht
    obtain ⟨-, hdemand, -⟩ := Builder.read_demand Store.builder_counts options bytes s.store
    change 2 * (s.store.read options bytes).2.cells.size ≤ _ at hdemand
    change _ ≤ (s.store.read options bytes).2.cells.size at hle
    omega
  not_refused hroom e h := by
    rw [(parse_eq options bytes s).1] at h
    exact Store.code_ne_of_read hroom h
  nodeCount_le root stop t h := by
    obtain ⟨hread, hlast⟩ := parse_eq_ok_iff.1 h
    obtain ⟨front, hle, hfront⟩ := Builder.read_front hread
    have hcount : 2 * (t.store.tree root).nodeCount ≤ front + 1 :=
      Document.nodeCount_le (Store.readTree_of_read hfront).2
    exact ⟨front, hle, parse_eq_ok_iff.2 ⟨hfront, hlast⟩, by omega⟩

/-- Three nodes for five bytes are as many as there can be. -/
example : ((empty none).parse {} (Utf8.encode "[1,2]")).2.store.cells.size = (5 + 1) / 2 := by
  decide +kernel

end Session

end LinkedJson
