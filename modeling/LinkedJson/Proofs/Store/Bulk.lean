import LinkedJson.Proofs.Store.Holding

/-!
# Making many nodes at once

An operation that makes a tree of `k` nodes is refused exactly if the arena has no room for `k` more
nodes. If it is refused, at whatever node that was, the arena is as it was; if not, the new nodes are
the tree and no others. `Made` says so, whatever the tree is, and `made_of_built` proves it of all
operations that build trees.
-/

namespace LinkedJson

namespace JsonTree

theorem copyRoot_copy (t : JsonTree) : t.copyRoot.copy = t.copyRoot := by
  unfold copyRoot
  cases h : t.resolve with
  | reference l target => exact absurd h (t.resolve_ne_reference l target)
  | _ => rfl

theorem label_copyRoot (t : JsonTree) : t.copyRoot.label = t.label := by
  unfold copyRoot
  cases t.resolve <;> rfl

theorem nodeCount_copyRoot (t : JsonTree) : t.copyRoot.nodeCount = 1 := by
  unfold copyRoot
  cases h : t.resolve with
  | reference l target => exact absurd h (t.resolve_ne_reference l target)
  | _ => rfl

theorem nodeCounts_scalars (values : List Scalar) :
    nodeCounts (values.map (.scalar .none)) = values.length := by
  induction values with
  | nil => rfl
  | cons v values ih => rw [List.map_cons, nodeCounts, ih, nodeCount, List.length_cons, Nat.add_comm]

end JsonTree

namespace Store

variable {s t : Store} {a : Arena} {x : JsonTree} {k : Nat}

/-- The node `root` of the store `t` holds the tree `x`, and its `k` nodes are what `t` has more than
the store `s`, whose arena is `a`. -/
structure NewTree (s : Store) (a : Arena) (x : JsonTree) (k : Nat) (t : Store) (root : NodeId) :
    Prop where
  holds : t.Holds root x
  prev : t.prev? root = none
  next : t.next? root = none
  /-- The children of every container are linked in both directions. -/
  links : ∀ p ∈ t.owned root, t.Linked none (t.children p) none
  nodup : (t.owned root).Nodup
  length : (t.owned root).length = k
  fresh : ∀ i ∈ t.owned root, ¬ s.Has i
  /-- Beside the nodes that were live before, the arena counts each node of the tree once. -/
  live : ∃ taken : List NodeId, taken.Perm (t.owned root) ∧
    t.arena = some { a with live := taken ++ a.live }

/-- What an operation comes to that makes the tree `x` out of `k` nodes of the arena `a`: all of the
nodes, or none of them. -/
structure Made (s : Store) (a : Arena) (x : JsonTree) (k : Nat) (r : Option NodeId × Store) :
    Prop where
  /-- Nothing but the limit refuses a node. -/
  isSome_iff : r.1.isSome ↔ ∀ limit ∈ a.maxNodes, (a.live.length + k : Int) ≤ limit
  made : ∀ root, r.1 = some root → s.NewTree a x k r.2 root
  refused : r.1 = none → r.2.arena = some a
  /-- No node from before is changed. -/
  keeps : s.Extends r.2

theorem hasRoom_iff_of_arena (h : s.arena = some a) (k : Nat) :
    s.HasRoom k ↔ ∀ limit ∈ a.maxNodes, (a.live.length + k : Int) ≤ limit := by
  unfold HasRoom
  rw [h]
  simp only [Option.mem_some_iff, forall_eq']

/-- A fresh tree holds what is read from it. -/
theorem newTree_of_grown (h : s.arena = some a) {root : NodeId} {ns : List NodeId}
    (g : Grown s t [root] ns) (r : t.Reads [root] ns [x]) (hlength : ns.length = x.nodeCount) :
    s.NewTree a x x.nodeCount t root := by
  obtain ⟨-, hprev, hnext⟩ := Linked.singleton_iff.1 g.linked
  obtain ⟨y, hy⟩ := g.forest.exists_holds r.plain root List.mem_cons_self
  have hxy : x = y := (r.tree_eq g.forest g.nodup hlength).symm.trans hy.tree_eq
  obtain ⟨taken, hperm, harena⟩ := g.taken
  rw [h] at harena
  exact ⟨hxy ▸ hy, hprev, hnext, g.linked_owned, g.nodup_owned,
    g.owned_perm.length_eq.trans hlength, g.fresh_owned, taken, hperm.trans g.owned_perm.symm,
    harena⟩

/-- Whatever builds a tree whole or leaves nothing of it is refused by the limit alone. -/
theorem made_of_built (h : s.arena = some a) {r : Option NodeId × Store} (hbuilt : Built s r)
    (hread : BuiltAs s x r) : s.Made a x x.nodeCount r := by
  have hroom := hasRoom_iff_of_arena h x.nodeCount
  obtain ⟨_ | root, t⟩ := r
  · have g : Grown s t [] [] := hbuilt
    refine ⟨⟨fun hsome => (nomatch hsome), fun hlimit => ?_⟩, fun _ hroot => (nomatch hroot),
      fun _ => g.arena_eq.trans h, g.keeps⟩
    exact absurd (hroom.2 hlimit) hread
  · obtain ⟨ns, g, r, hlength⟩ := hread
    have hfits : s.HasRoom x.nodeCount := by
      rw [← hlength]
      exact (g.hasRoom_iff 0).1 (hasRoom_zero_iff.2 hbuilt.2)
    refine ⟨⟨fun _ => hroom.1 hfits, fun _ => rfl⟩, fun root' hroot => ?_,
      fun hnone => (nomatch hnone), g.keeps⟩
    cases hroot
    exact newTree_of_grown h g r hlength

/-! ## Arrays of values and copies -/

theorem made_createArrayOf (h : s.arena = some a) (values : List Scalar) :
    s.Made a (.array .none (values.map (.scalar .none))) (values.length + 1)
      (s.createArrayOf values) := by
  have hmade := made_of_built h (built_createArrayOf values s) (built_as_createArrayOf values s)
  rwa [JsonTree.nodeCount, JsonTree.nodeCounts_scalars] at hmade

theorem made_duplicate_root (h : s.arena = some a) (id : NodeId) :
    s.Made a (s.tree id).copyRoot 1 (s.duplicate false id) := by
  have hread := built_as_buildTree (s.tree id).copyRoot (s.tree id).label s
  rw [JsonTree.copyRoot_copy, ← JsonTree.label_copyRoot, JsonTree.withLabel_label,
    JsonTree.label_copyRoot] at hread
  have hmade := made_of_built h (built_duplicate false id s) hread
  rwa [JsonTree.nodeCount_copyRoot] at hmade

theorem made_duplicate (h : s.arena = some a) {id : NodeId} (hx : s.Holds id x) :
    s.Made a x.copy x.copy.nodeCount (s.duplicate true id) := by
  have hread := built_as_duplicate id s
  rw [hx.tree_eq] at hread
  exact made_of_built h (built_duplicate true id s) hread

/-- **Many nodes are made all or none, and none only for want of room.** An array of values needs a
node for each value and one for itself, a copy of a node alone needs one, and a copy of the tree that
a node holds needs as many as the tree has when each reference is replaced by the tree of its target.
The operation succeeds exactly if the arena may hold that many more nodes. Then these are the only
new nodes and hold the tree; otherwise the live nodes are those from before. No node from before is
changed. -/
theorem bulk_all_or_nothing (h : s.arena = some a) :
    (∀ ds : List Double,
      s.Made a (.array .none (ds.map fun d => .scalar .none (.number (.ofTruncated d))))
        (ds.length + 1) (s.createIntArray ds) ∧
      s.Made a (.array .none (ds.map fun d => .scalar .none (.number (.ofSingle d))))
        (ds.length + 1) (s.createFloatArray ds) ∧
      s.Made a (.array .none (ds.map fun d => .scalar .none (.number (.ofDouble d))))
        (ds.length + 1) (s.createDoubleArray ds)) ∧
    (∀ texts : List WideString,
      s.Made a (.array .none (texts.map fun text => .scalar .none (.string text)))
        (texts.length + 1) (s.createStringArray texts)) ∧
    (∀ id, s.Made a (s.tree id).copyRoot 1 (s.duplicate false id)) ∧
    ∀ id x, s.Holds id x →
      s.tree id = x ∧ s.Made a x.copy x.copy.nodeCount (s.duplicate true id) := by
  have hvalues : ∀ {α : Type} (make : α → Scalar) (values : List α),
      s.Made a (.array .none (values.map fun v => .scalar .none (make v))) (values.length + 1)
        (s.createArrayOf (values.map make)) := by
    intro α make values
    have hmade := made_createArrayOf h (values.map make)
    rwa [List.map_map, List.length_map] at hmade
  refine ⟨fun ds => ⟨hvalues _ ds, hvalues _ ds, hvalues _ ds⟩, hvalues .string,
    made_duplicate_root h, fun id x hx => ⟨hx.tree_eq, made_duplicate h hx⟩⟩

/-- Of two references to one array of two items, a copy would have seven nodes, where the arena has
room for six. -/
theorem bulk_all_or_nothing_shared_target :
    let s : Store := {
      cells := #[⟨.array (some 1), .none, none, none⟩, ⟨.reference 3, .none, some 2, none⟩,
        ⟨.reference 3, .none, none, some 1⟩, ⟨.array (some 4), .none, none, none⟩,
        ⟨.scalar .null, .none, some 5, none⟩, ⟨.scalar (.bool true), .none, none, some 4⟩]
      arena := some ⟨[5, 4, 3, 2, 1, 0], some 12, .unlimited⟩ }
    (s.duplicate true 0).1 = none ∧ (s.duplicate true 0).2.arena = s.arena ∧
      (s.duplicate true 3).1.isSome ∧ (s.createStringArray ["a", "b"]).1.isSome := by
  intro s
  obtain ⟨-, htexts, -, hcopy⟩ := bulk_all_or_nothing (s := s) rfl
  have hthree : s.Holds 3 (.array .none [.scalar .none .null, .scalar .none (.bool true)]) :=
    ⟨rfl, some 4, rfl, 4, rfl, ⟨rfl, rfl⟩, 5, rfl, ⟨rfl, rfl⟩, rfl⟩
  have hzero : s.Holds 0 (.array .none [
      .reference .none (.array .none [.scalar .none .null, .scalar .none (.bool true)]),
      .reference .none (.array .none [.scalar .none .null, .scalar .none (.bool true)])]) :=
    ⟨rfl, some 1, rfl, 1, rfl, ⟨rfl, 3, rfl, hthree⟩, 2, rfl, ⟨rfl, 3, rfl, hthree⟩, rfl⟩
  obtain ⟨-, hmade⟩ := hcopy 0 _ hzero
  have hnone : (s.duplicate true 0).1 = none := by
    refine Option.not_isSome_iff_eq_none.1 fun hsome => ?_
    exact absurd (hmade.isSome_iff.1 hsome 12 rfl) (by decide)
  refine ⟨hnone, hmade.refused hnone, (hcopy 3 _ hthree).2.isSome_iff.2 ?_,
    (htexts ["a", "b"]).isSome_iff.2 ?_⟩
  · intro limit hlimit
    cases hlimit
    decide
  · intro limit hlimit
    cases hlimit
    decide

end Store

end LinkedJson
