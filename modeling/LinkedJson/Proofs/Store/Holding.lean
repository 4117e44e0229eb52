import LinkedJson.Proofs.Store.Shown

/-!
# Trees that nodes hold

`Holds s id x` says that the tree `x` is what the node holds: the value and the label of the node
are those of the root, its first child and the siblings after it hold the parts one after another,
and a reference holds what its target holds. A node holds at most one tree (`Holds.unique`), and
`Store.tree` reads it (`Holds.tree_eq`): no node is passed twice on a way down, since what is held
becomes smaller, and so no way down is longer than the store.

Every node of a well-linked store from which no way down goes on forever holds a tree.
-/

namespace LinkedJson

namespace JsonTree

theorem nodeCount_le_of_mem {t : JsonTree} {ts : List JsonTree} (h : t ∈ ts) :
    t.nodeCount ≤ nodeCounts ts := by
  induction ts with
  | nil => cases h
  | cons u us ih =>
    rw [nodeCounts]
    rcases List.mem_cons.1 h with rfl | h
    · exact Nat.le_add_right ..
    · exact (ih h).trans (Nat.le_add_left ..)

end JsonTree

namespace Store

variable {s t : Store} {id : NodeId} {head : Option NodeId} {x y : JsonTree}

mutual

/-- The node holds the tree. -/
def Holds (s : Store) (id : NodeId) : JsonTree → Prop
  | .scalar l v => s.label id = l ∧ s.content? id = some (.scalar v)
  | .array l items =>
    s.label id = l ∧ ∃ child, s.content? id = some (.array child) ∧ s.HoldsAll child items
  | .object l members =>
    s.label id = l ∧ ∃ child, s.content? id = some (.object child) ∧ s.HoldsAll child members
  | .reference l target =>
    s.label id = l ∧ ∃ i, s.content? id = some (.reference i) ∧ s.Holds i target

/-- The siblings from `head` on hold the trees. -/
def HoldsAll (s : Store) (head : Option NodeId) : List JsonTree → Prop
  | [] => head = none
  | t :: ts => ∃ id, head = some id ∧ s.Holds id t ∧ s.HoldsAll (s.next? id) ts

end

/-! ## One tree -/

theorem Holds.exists_content? (h : s.Holds id x) : ∃ content, s.content? id = some content := by
  cases x with
  | scalar l v =>
    obtain ⟨-, hcontent⟩ := h
    exact ⟨_, hcontent⟩
  | _ =>
    obtain ⟨-, child, hcontent, -⟩ := h
    exact ⟨_, hcontent⟩

theorem Holds.has (h : s.Holds id x) : s.Has id := by
  obtain ⟨content, hcontent⟩ := h.exists_content?
  exact has_of_content? hcontent

mutual

/-- A node holds no two trees. -/
theorem Holds.unique : ∀ {x y : JsonTree} {id : NodeId}, s.Holds id x → s.Holds id y → x = y
  | .scalar _ _, y, _, hx, hy => by
    obtain ⟨hl, hcontent⟩ := hx
    cases y with
    | scalar l' v' =>
      obtain ⟨hl', hcontent'⟩ := hy
      cases hcontent.symm.trans hcontent'
      rw [← hl, ← hl']
    | _ => simp [Holds, hcontent] at hy
  | .array _ _, y, _, hx, hy => by
    obtain ⟨hl, child, hcontent, hitems⟩ := hx
    cases y with
    | array l' items' =>
      obtain ⟨hl', child', hcontent', hitems'⟩ := hy
      cases hcontent.symm.trans hcontent'
      rw [← hl, ← hl', HoldsAll.unique hitems hitems']
    | _ => simp [Holds, hcontent] at hy
  | .object _ _, y, _, hx, hy => by
    obtain ⟨hl, child, hcontent, hmembers⟩ := hx
    cases y with
    | object l' members' =>
      obtain ⟨hl', child', hcontent', hmembers'⟩ := hy
      cases hcontent.symm.trans hcontent'
      rw [← hl, ← hl', HoldsAll.unique hmembers hmembers']
    | _ => simp [Holds, hcontent] at hy
  | .reference _ _, y, _, hx, hy => by
    obtain ⟨hl, i, hcontent, htarget⟩ := hx
    cases y with
    | reference l' target' =>
      obtain ⟨hl', i', hcontent', htarget'⟩ := hy
      cases hcontent.symm.trans hcontent'
      rw [← hl, ← hl', Holds.unique htarget htarget']
    | _ => simp [Holds, hcontent] at hy

theorem HoldsAll.unique : ∀ {ts us : List JsonTree} {head : Option NodeId},
    s.HoldsAll head ts → s.HoldsAll head us → ts = us
  | [], [], _, _, _ => rfl
  | [], _ :: _, _, hts, hus => by
    obtain ⟨id, hid, -⟩ := hus
    cases hts.symm.trans hid
  | _ :: _, [], _, hts, hus => by
    obtain ⟨id, hid, -⟩ := hts
    cases hus.symm.trans hid
  | _ :: _, _ :: _, _, hts, hus => by
    obtain ⟨id, hid, hfirst, hrest⟩ := hts
    obtain ⟨id', hid', hfirst', hrest'⟩ := hus
    cases hid.symm.trans hid'
    rw [Holds.unique hfirst hfirst', HoldsAll.unique hrest hrest']

end

/-! ## Siblings -/

namespace HoldsAll

variable {ts : List JsonTree} {n : Nat}

/-- From every sibling on fewer trees are held, the further the fewer. -/
theorem exists_behind (h : s.HoldsAll head ts) {i : NodeId} (hi : i ∈ s.chain n head) :
    ∃ us : List JsonTree, s.HoldsAll (some i) us ∧ us.length ≤ ts.length := by
  induction ts generalizing head n with
  | nil =>
    rw [show head = none from h] at hi
    cases n <;> cases hi
  | cons t ts ih =>
    obtain ⟨id, rfl, hid, hrest⟩ := h
    cases n with
    | zero => cases hi
    | succ n =>
      rcases List.mem_cons.1 hi with rfl | hi
      · exact ⟨t :: ts, ⟨i, rfl, hid, hrest⟩, Nat.le_refl _⟩
      · obtain ⟨us, hus, hle⟩ := ih hrest hi
        exact ⟨us, hus, hle.trans (Nat.le_succ _)⟩

theorem nodup_chain (h : s.HoldsAll head ts) : (s.chain n head).Nodup := by
  induction ts generalizing head n with
  | nil =>
    rw [show head = none from h]
    cases n <;> exact List.nodup_nil
  | cons t ts ih =>
    obtain ⟨id, rfl, hid, hrest⟩ := h
    cases n with
    | zero => exact List.nodup_nil
    | succ n =>
      refine List.nodup_cons.2 ⟨fun hmem => ?_, ih hrest⟩
      obtain ⟨us, hus, hle⟩ := hrest.exists_behind hmem
      have hall : s.HoldsAll (some id) (t :: ts) := ⟨id, rfl, hid, hrest⟩
      have hlength := congrArg List.length (hus.unique hall)
      rw [List.length_cons] at hlength
      omega

theorem has_of_mem_chain (h : s.HoldsAll head ts) {i : NodeId} (hi : i ∈ s.chain n head) :
    s.Has i := by
  obtain ⟨us, hus, -⟩ := h.exists_behind hi
  cases us with
  | nil => cases hus
  | cons u us =>
    obtain ⟨id, hid, hfirst, -⟩ := hus
    cases hid
    exact hfirst.has

/-- The links lead to as many siblings as there are trees, and each holds its tree. -/
theorem forall₂_chain (h : s.HoldsAll head ts) (hn : ts.length ≤ n) :
    List.Forall₂ s.Holds (s.chain n head) ts := by
  induction ts generalizing head n with
  | nil =>
    rw [show head = none from h]
    cases n <;> exact .nil
  | cons t ts ih =>
    obtain ⟨id, rfl, hid, hrest⟩ := h
    obtain ⟨n, rfl⟩ : ∃ m, n = m + 1 := Nat.exists_eq_add_one.2 (Nat.lt_of_lt_of_le (by simp) hn)
    exact .cons hid (ih hrest (Nat.le_of_succ_le_succ hn))

theorem length_le (h : s.HoldsAll head ts) : ts.length ≤ s.cells.size := by
  have hchain := (h.forall₂_chain (Nat.le_refl _)).length_eq
  rw [← hchain]
  exact length_le_size h.nodup_chain fun i hi => h.has_of_mem_chain hi

end HoldsAll

/-! ## Reading what is held -/

theorem map_eq_of_forall₂ {f : NodeId → JsonTree} {ids : List NodeId} {ts : List JsonTree}
    (h : List.Forall₂ s.Holds ids ts) (hf : ∀ i, ∀ y ∈ ts, s.Holds i y → f i = y) :
    ids.map f = ts := by
  induction h with
  | nil => rfl
  | @cons i y _ _ hi _ ih =>
    rw [List.map_cons, hf i y List.mem_cons_self hi,
      ih fun j z hz => hf j z (List.mem_cons_of_mem _ hz)]

/-- What is held on a way down becomes smaller, so the nodes that the way has come through are other
nodes. -/
theorem Holds.nodup_cons {path : List NodeId} (h : s.Holds id x) (hnodup : path.Nodup)
    (hpath : ∀ i ∈ path, ∃ y, s.Holds i y ∧ x.nodeCount < y.nodeCount) : (id :: path).Nodup := by
  refine List.nodup_cons.2 ⟨fun hmem => ?_, hnodup⟩
  obtain ⟨y, hy, hlt⟩ := hpath id hmem
  rw [h.unique hy] at hlt
  exact Nat.lt_irrefl _ hlt

theorem Holds.treeTo_eq {n : Nat} {path : List NodeId} (h : s.Holds id x) (hnodup : path.Nodup)
    (hpath : ∀ i ∈ path, ∃ y, s.Holds i y ∧ x.nodeCount < y.nodeCount)
    (hn : s.cells.size ≤ path.length + n) : s.treeTo n id = x := by
  induction n generalizing id x path with
  | zero =>
    have hle := length_le_size (h.nodup_cons hnodup hpath) (List.forall_mem_cons.2
      ⟨h.has, fun i hi => (hpath i hi).elim fun y hy => hy.1.has⟩)
    rw [List.length_cons] at hle
    omega
  | succ n ih =>
    have hsmaller : ∀ i y, s.Holds i y → y.nodeCount < x.nodeCount → s.treeTo n i = y := by
      intro i y hi hlt
      refine ih hi (h.nodup_cons hnodup hpath) ?_ ?_
      · refine List.forall_mem_cons.2 ⟨⟨x, h, hlt⟩, fun j hj => ?_⟩
        obtain ⟨z, hz, hlt'⟩ := hpath j hj
        exact ⟨z, hz, hlt.trans hlt'⟩
      · rw [List.length_cons]
        omega
    have hparts : ∀ {child ts}, s.child? id = child → s.HoldsAll child ts →
        JsonTree.nodeCounts ts < x.nodeCount → (s.children id).map (s.treeTo n) = ts := by
      intro child ts hchild hts hlt
      rw [children, siblings, hchild]
      refine map_eq_of_forall₂ (hts.forall₂_chain hts.length_le) fun i y hy hi => ?_
      exact hsmaller i y hi ((JsonTree.nodeCount_le_of_mem hy).trans_lt hlt)
    cases x with
    | scalar l v =>
      obtain ⟨hl, hcontent⟩ := h
      rw [treeTo, hcontent, hl]
    | array l items =>
      obtain ⟨hl, child, hcontent, hitems⟩ := h
      have hchild : s.child? id = child := by rw [child?, hcontent]; rfl
      rw [treeTo, hcontent, hl]
      exact congrArg _ (hparts hchild hitems (Nat.lt_succ_self _))
    | object l members =>
      obtain ⟨hl, child, hcontent, hmembers⟩ := h
      have hchild : s.child? id = child := by rw [child?, hcontent]; rfl
      rw [treeTo, hcontent, hl]
      exact congrArg _ (hparts hchild hmembers (Nat.lt_succ_self _))
    | reference l target =>
      obtain ⟨hl, i, hcontent, htarget⟩ := h
      rw [treeTo, hcontent, hl]
      exact congrArg _ (hsmaller i target htarget (Nat.lt_succ_self _))

/-- What a node holds is the tree that is read from it. -/
theorem Holds.tree_eq (h : s.Holds id x) : s.tree id = x :=
  h.treeTo_eq List.nodup_nil (fun _ hi => nomatch hi) (Nat.le_add_left ..)

/-! ## Nodes that hold a tree -/

/-- A node holds a tree if its children and its target do. -/
theorem exists_holds_of_parts {content : Content} (hcontent : s.content? id = some content)
    (hparts : ∃ ts, s.HoldsAll (s.child? id) ts)
    (htarget : ∀ i, content = .reference i → ∃ y, s.Holds i y) : ∃ x, s.Holds id x := by
  obtain ⟨ts, hts⟩ := hparts
  have hchild : s.child? id = content.child? := by rw [child?, hcontent]; rfl
  rw [hchild] at hts
  cases content with
  | scalar v => exact ⟨.scalar (s.label id) v, rfl, hcontent⟩
  | array child => exact ⟨.array (s.label id) ts, rfl, child, hcontent, hts⟩
  | object child => exact ⟨.object (s.label id) ts, rfl, child, hcontent, hts⟩
  | reference i =>
    obtain ⟨y, hy⟩ := htarget i rfl
    exact ⟨.reference (s.label id) y, rfl, i, hcontent, hy⟩

/-- Siblings hold trees if each of them does. -/
theorem exists_holdsAll {prev : Option NodeId} {ids : List NodeId} (h : s.Linked prev ids none)
    (hids : ∀ i ∈ ids, ∃ y, s.Holds i y) : ∃ ts, s.HoldsAll ids.head? ts := by
  induction ids generalizing prev with
  | nil => exact ⟨[], rfl⟩
  | cons id ids ih =>
    obtain ⟨-, -, hnext, hrest⟩ := h
    obtain ⟨y, hy⟩ := hids id List.mem_cons_self
    obtain ⟨ts, hts⟩ := ih hrest fun i hi => hids i (List.mem_cons_of_mem id hi)
    rw [Option.or_none] at hnext
    exact ⟨y :: ts, id, rfl, hy, hnext.symm ▸ hts⟩

theorem WellLinked.exists_holds (h : s.WellLinked) (htargets : s.PlainTargets) (hid : s.Has id)
    (hacc : Acc s.Under id) : ∃ x, s.Holds id x := by
  induction hacc with
  | intro id _ ih =>
    obtain ⟨content, hcontent⟩ := exists_content?_of_has hid
    refine exists_holds_of_parts hcontent ?_ fun i hi => ?_
    · rw [h.head]
      exact exists_holdsAll (h.linked id) fun i hi => ih i (.inl hi) (h.has_of_mem hi)
    · rw [hi] at hcontent
      obtain ⟨content, htarget, -⟩ := htargets.exists_content? hcontent
      exact ih i (.inr hcontent) (has_of_content? htarget)

/-- Without references among them, the nodes of a forest hold trees. -/
theorem Forest.exists_holds {ids ns : List NodeId} (f : s.Forest ids ns)
    (hplain : ∀ i ∈ ns, ∀ target, s.content? i ≠ some (.reference target)) :
    ∀ i ∈ ids, ∃ y, s.Holds i y := by
  induction f with
  | nil =>
    intro i hi
    cases hi
  | @cons id ids kids below after hhas hchild hlinked _ _ ihbelow ihafter =>
    intro i hi
    rcases List.mem_cons.1 hi with rfl | hi
    · obtain ⟨content, hcontent⟩ := exists_content?_of_has hhas
      refine exists_holds_of_parts hcontent ?_ fun j hj => ?_
      · rw [hchild]
        exact exists_holdsAll hlinked (ihbelow fun j hj => hplain j (List.mem_append_left _ hj))
      · rw [hj] at hcontent
        exact absurd hcontent (hplain i (List.mem_append_right _ List.mem_cons_self) j)
    · exact ihafter (fun j hj => hplain j
        (List.mem_append_right _ (List.mem_cons_of_mem _ hj))) i hi

end Store

end LinkedJson
