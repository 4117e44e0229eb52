import LinkedJson.Proofs.Store.Naming

/-!
# Nodes that a copy shows

`Under s i p` says that one step down leads from `p` to `i`: to a child, or to the target of a
reference. If no way down from a node goes on forever, no way down is longer than the store
(`wholeTo_of_acc`), so `Store.tree` reads everything that is there.

Each node of a copy shows a node of the store, and `copied` lists these in the order of the copy.
Such a node lends the copy its label; what the copy holds it takes from the target, if the node is a
reference (`copyFace?`).
-/

namespace LinkedJson

namespace JsonTree

/-- The root alone is built as the first node of the tree. -/
theorem facesAs_copyRoot (l : Label) (t : JsonTree) :
    t.copyRoot.facesAs l = (t.facesAs l).take 1 := by
  induction t using resolve.induct with
  | case1 l' target ih =>
    rw [facesAs, ← ih]
    unfold copyRoot
    rw [resolve]
    cases target.resolve <;> rfl
  | case2 t hplain =>
    unfold copyRoot
    rw [resolve.eq_2 t hplain]
    cases t with
    | reference l' target => exact absurd rfl (hplain l' target)
    | _ => rfl

end JsonTree

namespace Store

variable {s : Store} {i p id target : NodeId} {content : Content}

/-! ## Ways down -/

/-- `i` is a child of `p`, or `p` refers to `i`. -/
def Under (s : Store) (i p : NodeId) : Prop :=
  i ∈ s.children p ∨ s.content? p = some (.reference i)

/-- All nodes that ways down from a node lead to are there, and fewer than `n` steps lead to each.
-/
def WholeTo (s : Store) : (n : Nat) → NodeId → Prop
  | 0, _ => False
  | n + 1, id => s.Has id ∧ ∀ i, s.Under i id → s.WholeTo n i

theorem WholeTo.pos {n : Nat} (h : s.WholeTo n id) : 0 < n := by
  cases n with
  | zero => exact h.elim
  | succ n => exact Nat.succ_pos n

/-- No way down leads back to where it began, if none goes on forever. -/
theorem not_under_self (h : Acc s.Under id) : ¬ Relation.TransGen s.Under id id := by
  intro hloop
  induction h.transGen with
  | intro id _ ih => exact ih id hloop (h.inv_of_transGen hloop) hloop

/-- A way down passes no node twice, so with the nodes that it came through it is no longer than the
store. -/
theorem wholeTo_of_path (hunder : ∀ {i p}, s.Under i p → s.Has i) {n : Nat} {path : List NodeId}
    (hacc : Acc s.Under id) (hid : s.Has id) (hnodup : path.Nodup)
    (hpath : ∀ i ∈ path, s.Has i ∧ Relation.TransGen s.Under id i)
    (hn : s.cells.size ≤ path.length + n) : s.WholeTo n id := by
  induction n generalizing id path with
  | zero =>
    have hnot : id ∉ path := fun hmem => not_under_self hacc (hpath id hmem).2
    have hle := length_le_size (List.nodup_cons.2 ⟨hnot, hnodup⟩)
      (List.forall_mem_cons.2 ⟨hid, fun i hi => (hpath i hi).1⟩)
    rw [List.length_cons] at hle
    omega
  | succ n ih =>
    have hnot : id ∉ path := fun hmem => not_under_self hacc (hpath id hmem).2
    refine ⟨hid, fun i hi => ?_⟩
    refine ih (hacc.inv hi) (hunder hi) (List.nodup_cons.2 ⟨hnot, hnodup⟩) ?_ ?_
    · refine List.forall_mem_cons.2 ⟨⟨hid, .single hi⟩, fun j hj => ?_⟩
      exact ⟨(hpath j hj).1, .head hi (hpath j hj).2⟩
    · rw [List.length_cons]
      omega

/-- The target of every reference is a node, and not a reference. -/
def PlainTargets (s : Store) : Prop :=
  ∀ i target, s.content? i = some (.reference target) →
    ∃ k, s.kind? target = some k ∧ k ≠ .reference

theorem exists_content?_of_kind? {k : Kind} (h : s.kind? i = some k) :
    ∃ content, s.content? i = some content ∧ content.kind = k :=
  Option.map_eq_some_iff.1 h

theorem has_of_content? (h : s.content? i = some content) : s.Has i := by
  obtain ⟨c, hc, -⟩ := Option.map_eq_some_iff.1 h
  exact has_iff.2 ⟨c, hc⟩

theorem PlainTargets.exists_content? (h : s.PlainTargets)
    (hcontent : s.content? p = some (.reference target)) :
    ∃ content, s.content? target = some content ∧ ∀ i, content ≠ .reference i := by
  obtain ⟨k, hk, hne⟩ := h p target hcontent
  obtain ⟨content, htarget, rfl⟩ := exists_content?_of_kind? hk
  refine ⟨content, htarget, fun i heq => hne ?_⟩
  rw [heq]
  rfl

theorem wholeTo_of_acc (h : s.WellLinked) (htargets : s.PlainTargets) (hid : s.Has id)
    (hacc : Acc s.Under id) : s.WholeTo s.cells.size id := by
  refine wholeTo_of_path (fun {i p} hi => ?_) hacc hid List.nodup_nil (fun _ hi => nomatch hi)
    (Nat.le_add_left ..)
  rcases hi with hi | hi
  · exact h.has_of_mem hi
  · obtain ⟨content, hcontent, -⟩ := htargets.exists_content? hi
    exact has_of_content? hcontent

/-- The tree that is read is well-named if all children are named. -/
theorem WholeTo.wellNamed (hnames : ∀ p, s.NamesChildren p) {n : Nat} (h : s.WholeTo n id) :
    (s.treeTo n id).WellNamed := by
  induction n generalizing id with
  | zero => exact h.elim
  | succ n ih =>
    obtain ⟨-, hunder⟩ := h
    have hkids : ∀ i ∈ s.children id, (s.treeTo n i).WellNamed :=
      fun i hi => ih (hunder i (.inl hi))
    have hlabel : ∀ i ∈ s.children id, (s.treeTo n i).label = s.label i := by
      intro i hi
      obtain ⟨m, rfl⟩ := Nat.exists_eq_add_one.2 (hunder i (.inl hi)).pos
      exact label_treeTo s m i
    rw [treeTo]
    cases hcontent : s.content? id with
    | none => exact .scalar ..
    | some content =>
      have hfits := hnames id content.kind (by rw [kind?, hcontent]; rfl)
      cases content with
      | scalar v => exact .scalar ..
      | array child =>
        refine .array _ (List.forall_mem_map.2 fun i hi => ?_) (List.forall_mem_map.2 hkids)
        rw [hlabel i hi]
        exact hfits i hi
      | object child =>
        refine .object _ (List.forall_mem_map.2 fun i hi => ?_) (List.forall_mem_map.2 hkids)
        rw [hlabel i hi]
        exact hfits i hi
      | reference target => exact .reference _ (ih (hunder target (.inr hcontent)))

/-! ## Copied nodes -/

/-- The nodes that a deep copy shows, a node before its items, down to `depth` nodes below each
other. -/
def shownTo (s : Store) : (depth : Nat) → NodeId → List NodeId
  | 0, _ => []
  | depth + 1, id => id :: (s.items id).flatMap (s.shownTo depth)

/-- The nodes that a copy shows, in the order in which their copies are made. -/
def copied (s : Store) (deep : Bool) (id : NodeId) : List NodeId :=
  if deep then s.shownTo s.cells.size id else [id]

/-- What is copied of a node: the content of the node that it resolves to, and its own label. -/
def copyFace? (s : Store) (id : NodeId) : Option Face :=
  (s.face? (s.resolve id)).map ({ · with label := s.label id })

theorem resolve_of_reference (h : s.content? id = some (.reference target)) :
    s.resolve id = target := by
  rw [resolve, h]

theorem resolve_of_plain (h : s.content? id = some content)
    (hplain : ∀ target, content ≠ .reference target) : s.resolve id = id := by
  rw [resolve, h]
  cases content with
  | reference target => exact absurd rfl (hplain target)
  | _ => rfl

theorem copyFace?_eq (h : s.content? (s.resolve id) = some content) :
    s.copyFace? id = some ⟨content.withChild none, s.label id⟩ := by
  rw [copyFace?, face?_of_content? h]
  rfl

/-- The faces of the tree under a node that is no reference. -/
theorem facesAs_treeTo_plain (h : s.content? id = some content)
    (hplain : ∀ target, content ≠ .reference target) (n : Nat) (l : Label) :
    (s.treeTo (n + 1) id).facesAs l =
      ⟨content.withChild none, l⟩ :: JsonTree.facesOf ((s.children id).map (s.treeTo n)) := by
  rw [treeTo, h]
  cases content with
  | scalar v =>
    have hnil : s.children id = [] := children_eq_nil_of_child? (by rw [child?, h]; rfl)
    rw [hnil]
    rfl
  | array child => rfl
  | object child => rfl
  | reference target => exact absurd rfl (hplain target)

theorem facesAs_treeTo_reference (h : s.content? id = some (.reference target)) (n : Nat)
    (l : Label) : (s.treeTo (n + 1) id).facesAs l = (s.treeTo n target).facesAs l := by
  rw [treeTo, h]
  rfl

theorem facesOf_treeTo {n m : Nat} {ids : List NodeId} (hn : 0 < n)
    (h : ∀ i ∈ ids, ((s.treeTo n i).facesAs (s.label i)).map some =
      (s.shownTo m i).map s.copyFace?) :
    (JsonTree.facesOf (ids.map (s.treeTo n))).map some =
      (ids.flatMap (s.shownTo m)).map s.copyFace? := by
  obtain ⟨n, rfl⟩ := Nat.exists_eq_add_one.2 hn
  induction ids with
  | nil => rfl
  | cons i ids ih =>
    rw [List.map_cons, JsonTree.facesOf, List.flatMap_cons, List.map_append, List.map_append,
      label_treeTo, h i List.mem_cons_self, ih fun j hj => h j (List.mem_cons_of_mem _ hj)]

/-- The faces of the nodes that a tree is built as are those of the nodes that it shows. A reference
takes up two levels of the tree and shows one node. -/
theorem facesAs_treeTo (htargets : s.PlainTargets) (n m : Nat) (hnm : n ≤ m)
    (h : s.WholeTo n id) :
    ((s.treeTo n id).facesAs (s.label id)).map some = (s.shownTo m id).map s.copyFace? := by
  induction n using Nat.strongRecOn generalizing m id with
  | _ n ih =>
    -- what is left to show below a node that is no reference
    have hkids : ∀ {k m : Nat} {p : NodeId}, k + 1 ≤ n → k ≤ m → s.WholeTo (k + 1) p →
        (JsonTree.facesOf ((s.children p).map (s.treeTo k))).map some =
          ((s.children p).flatMap (s.shownTo m)).map s.copyFace? := by
      intro k m p hk hm hp
      cases k with
      | zero =>
        have hnil : s.children p = [] := List.eq_nil_iff_forall_not_mem.2 fun i hi =>
          hp.2 i (.inl hi)
        rw [hnil]
        rfl
      | succ k =>
        exact facesOf_treeTo (Nat.succ_pos k) fun i hi =>
          ih (k + 1) (by omega) m hm (hp.2 i (.inl hi))
    obtain ⟨k, rfl⟩ := Nat.exists_eq_add_one.2 h.pos
    obtain ⟨m, rfl⟩ := Nat.exists_eq_add_one.2 (show 0 < m by omega)
    obtain ⟨content, hcontent⟩ := exists_content?_of_has h.1
    rw [shownTo, items]
    by_cases href : ∃ target, content = .reference target
    · obtain ⟨target, rfl⟩ := href
      have htarget := h.2 target (.inr hcontent)
      obtain ⟨k, rfl⟩ := Nat.exists_eq_add_one.2 htarget.pos
      obtain ⟨content, hshown, hplain⟩ := htargets.exists_content? hcontent
      have hresolve := resolve_of_reference hcontent
      rw [facesAs_treeTo_reference hcontent, facesAs_treeTo_plain hshown hplain, List.map_cons,
        List.map_cons, copyFace?_eq (hresolve ▸ hshown), hresolve,
        hkids (Nat.le_succ _) (show k ≤ m by omega) htarget]
    · have hplain : ∀ target, content ≠ .reference target := fun target heq =>
        href ⟨target, heq⟩
      have hresolve := resolve_of_plain hcontent hplain
      rw [facesAs_treeTo_plain hcontent hplain, List.map_cons, List.map_cons,
        copyFace?_eq (hresolve.symm ▸ hcontent), hresolve,
        hkids (Nat.le_refl _) (Nat.le_of_succ_le_succ hnm) h]

/-- The face of a copy without its children. -/
theorem facesAs_tree_head (htargets : s.PlainTargets) (hid : s.Has id) :
    (((s.tree id).facesAs (s.label id)).take 1).map some = [s.copyFace? id] := by
  obtain ⟨content, hcontent⟩ := exists_content?_of_has hid
  obtain ⟨n, hn⟩ := Nat.exists_eq_add_one.2 (Nat.zero_lt_of_lt hid)
  rw [tree, hn]
  by_cases href : ∃ target, content = .reference target
  · obtain ⟨target, rfl⟩ := href
    obtain ⟨content, hshown, hplain⟩ := htargets.exists_content? hcontent
    -- a reference and its target are two nodes
    have hne : id ≠ target := by
      intro heq
      rw [← heq, hcontent] at hshown
      exact hplain target (Option.some.inj hshown).symm
    have hnodup : [id, target].Nodup :=
      List.nodup_cons.2 ⟨by simpa using hne, List.nodup_singleton target⟩
    have htwo := length_le_size hnodup (List.forall_mem_cons.2
      ⟨hid, List.forall_mem_singleton.2 (has_of_content? hshown)⟩)
    obtain ⟨m, rfl⟩ := Nat.exists_eq_add_one.2 (show 0 < n by simp at htwo; omega)
    rw [facesAs_treeTo_reference hcontent, facesAs_treeTo_plain hshown hplain,
      copyFace?_eq (resolve_of_reference hcontent ▸ hshown)]
    rfl
  · have hplain : ∀ target, content ≠ .reference target := fun target heq =>
      href ⟨target, heq⟩
    rw [facesAs_treeTo_plain hcontent hplain,
      copyFace?_eq ((resolve_of_plain hcontent hplain).symm ▸ hcontent)]
    rfl

/-- The faces of a copy are those of the nodes that it shows. -/
theorem facesAs_copied (h : s.WellLinked) (htargets : s.PlainTargets) (hid : s.Has id)
    (deep : Bool) (hacc : deep = true → Acc s.Under id) :
    ((if deep then s.tree id else (s.tree id).copyRoot).facesAs (s.tree id).label).map some =
      (s.copied deep id).map s.copyFace? := by
  have hlabel : (s.tree id).label = s.label id := by
    obtain ⟨n, hn⟩ := Nat.exists_eq_add_one.2 (Nat.zero_lt_of_lt hid)
    rw [tree, hn, label_treeTo]
  rw [hlabel]
  cases deep with
  | true =>
    exact facesAs_treeTo htargets _ _ (Nat.le_refl _) (wholeTo_of_acc h htargets hid (hacc rfl))
  | false =>
    exact (congrArg (List.map some) (JsonTree.facesAs_copyRoot ..)).trans
      (facesAs_tree_head htargets hid)

theorem wellNamed_copied (h : s.WellLinked) (hnames : ∀ p, s.NamesChildren p)
    (htargets : s.PlainTargets) (hid : s.Has id) (deep : Bool)
    (hacc : deep = true → Acc s.Under id) :
    (if deep then s.tree id else (s.tree id).copyRoot).WellNamed := by
  cases deep with
  | true => exact (wholeTo_of_acc h htargets hid (hacc rfl)).wellNamed hnames
  | false => exact JsonTree.wellNamed_copyRoot _

end Store

end LinkedJson
