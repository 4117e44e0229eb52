import LinkedJson.Proofs.Store.Building
import LinkedJson.Store.Document

/-!
# Deep copies

`JsonTree.copy` replaces each reference of a tree by its target's value. It keeps the text of the
tree, and copying again changes nothing.

A tree is built with all of its nodes behind the nodes of the store. `Reads s ids ns ts` says that
the siblings `ids`, which with all that hangs from them are the nodes `ns`, read as the trees `ts`
without references; building trees adds to what is read (`built_as_buildTree`), and refuses only if
the arena has no room for all of them. So a deep copy is a tree of its own that reads as the copied
tree: `Store.duplicate_deep`.
-/

namespace LinkedJson

/-! ## Copies of trees -/

namespace JsonTree

theorem copy_withLabel (l : Label) (t : JsonTree) : (t.withLabel l).copy = t.copy.withLabel l := by
  cases t with
  | reference l' target =>
    rw [copy, withLabel_withLabel, withLabel, copy]
  | _ => rfl

mutual

/-- A copy has no references left to replace. -/
theorem copy_copy : ∀ t : JsonTree, t.copy.copy = t.copy
  | scalar l v => rfl
  | array l items => by simp only [copy, copyAll_copyAll items]
  | object l members => by simp only [copy, copyAll_copyAll members]
  | reference l target => by simp only [copy, copy_withLabel, copy_copy target]

theorem copyAll_copyAll : ∀ ts : List JsonTree, copyAll (copyAll ts) = copyAll ts
  | [] => rfl
  | t :: ts => by simp only [copyAll, copy_copy t, copyAll_copyAll ts]

end

@[simp] theorem isEmpty_copyAll (ts : List JsonTree) : (copyAll ts).isEmpty = ts.isEmpty := by
  cases ts <;> rfl

theorem nodeCounts_append (ts us : List JsonTree) :
    nodeCounts (ts ++ us) = nodeCounts ts + nodeCounts us := by
  induction ts with
  | nil => simp [nodeCounts]
  | cons t ts ih => simp [nodeCounts, ih, Nat.add_assoc]

theorem nodeCount_pos (t : JsonTree) : 0 < t.nodeCount := by
  cases t <;> simp [nodeCount]

end JsonTree

/-! ## The text of a copy -/

namespace Writing

open JsonTree

theorem tree_withLabel (options : WriteOptions) (depth : Nat) (l : Label) (t : JsonTree)
    (b : Buffer) : tree options depth (t.withLabel l) b = tree options depth t b := by
  cases t <;> simp only [withLabel, tree]

mutual

/-- A copy is written like the tree: a reference is written as its target, and only the label of a
member is written. -/
theorem tree_copy (options : WriteOptions) : ∀ (t : JsonTree) (depth : Nat) (b : Buffer),
    tree options depth t.copy b = tree options depth t b
  | .scalar l v, depth, b => rfl
  | .array l ts, depth, b => by
    simp only [copy, tree, isEmpty_copyAll, items_copyAll options ts]
  | .object l ts, depth, b => by
    simp only [copy, tree, isEmpty_copyAll, members_copyAll options ts]
  | .reference l target, depth, b => by
    rw [copy, tree_withLabel, tree_copy options target, tree]

theorem items_copyAll (options : WriteOptions) : ∀ (ts : List JsonTree) (depth : Nat) (b : Buffer),
    items options depth (copyAll ts) b = items options depth ts b
  | [], depth, b => rfl
  | t :: ts, depth, b => by
    simp only [copyAll, items, isEmpty_copyAll, tree_copy options t, items_copyAll options ts]

theorem members_copyAll (options : WriteOptions) :
    ∀ (ts : List JsonTree) (depth : Nat) (b : Buffer),
      members options depth (copyAll ts) b = members options depth ts b
  | [], depth, b => rfl
  | t :: ts, depth, b => by
    simp only [copyAll, members, isEmpty_copyAll, label_copy, tree_copy options t,
      members_copyAll options ts]

end

end Writing

/-- Printing a copy gives the same text as printing the tree, or the same failure. -/
theorem JsonTree.print_copy (options : WriteOptions) (budget : ByteBudget) (t : JsonTree) :
    t.copy.print options budget = t.print options budget := by
  simp only [print, Writing.document, Writing.tree_copy]

namespace Store

variable {s t u : Store} {id : NodeId} {ids js ns ms : List NodeId} {ts us : List JsonTree}

/-! ## What siblings read as -/

/-- Two stores agree on what hangs from siblings, apart from the links between these siblings. -/
structure Agree (s t : Store) (ids ns : List NodeId) : Prop where
  has : ∀ i ∈ ns, t.Has i
  content : ∀ i ∈ ns, t.content? i = s.content? i
  label : ∀ i ∈ ns, t.label i = s.label i
  prev : ∀ i ∈ ns, i ∉ ids → t.prev? i = s.prev? i
  next : ∀ i ∈ ns, i ∉ ids → t.next? i = s.next? i

theorem label_congr {i : NodeId} (h : t.cells[i]? = s.cells[i]?) : t.label i = s.label i := by
  rw [label, label, h]

theorem Extends.agree (h : s.Extends t) (hhas : ∀ i ∈ ns, s.Has i) : Agree s t ids ns where
  has i hi := h.has (hhas i hi)
  content i hi := content?_congr (h.cell (hhas i hi))
  label i hi := label_congr (h.cell (hhas i hi))
  prev i hi _ := prev?_congr (h.cell (hhas i hi))
  next i hi _ := next?_congr (h.cell (hhas i hi))

/-- A link between two nodes is a link between siblings wherever they are. -/
theorem agree_link {last : NodeId} (hhas : ∀ i ∈ ns, s.Has i) (hlast : last ∈ ns → last ∈ ids)
    (hid : id ∈ ns → id ∈ ids) : Agree s (s.link last id) ids ns where
  has i hi := (has_link ..).2 (hhas i hi)
  content i _ := by rw [link, content?_setPrev, content?_setNext]
  label i _ := by rw [link, label_setPrev, label_setNext]
  prev i hi hnot := by
    rw [prev?_link, if_neg]
    intro h
    obtain ⟨rfl, -⟩ := h
    exact hnot (hid hi)
  next i hi hnot := by
    rw [next?_link, if_neg]
    intro h
    obtain ⟨rfl, -⟩ := h
    exact hnot (hlast hi)

theorem Forest.children_agree (f : s.Forest ids ns) (hnodup : ns.Nodup) (h : Agree s t ids ns)
    {p : NodeId} (hp : p ∈ ns) : t.children p = s.children p := by
  obtain ⟨hhead, hlinked, hsub, hinner⟩ := f.children_of_mem hnodup hp
  have hchild : t.child? p = s.child? p := by
    rw [child?, child?, h.content p hp]
  refine children_eq (hlinked.congr (fun i hi => h.has i (hsub hi)) (fun i hi => ?_) fun i hi => ?_)
    (hchild.trans hhead)
  · exact h.prev i (hsub hi) (hinner i hi)
  · exact h.next i (hsub hi) (hinner i hi)

/-- Stores that agree on the nodes of a forest without references read the same trees from them. -/
theorem Forest.treeTo_agree (f : s.Forest ids ns) (hnodup : ns.Nodup)
    (hplain : ∀ i ∈ ns, ∀ target, s.content? i ≠ some (.reference target)) (h : Agree s t ids ns)
    (n : Nat) : ∀ i ∈ ns, t.treeTo n i = s.treeTo n i := by
  induction n with
  | zero => exact fun _ _ => rfl
  | succ n ih =>
    intro i hi
    have hkids : (s.children i).map (t.treeTo n) = (s.children i).map (s.treeTo n) :=
      List.map_congr_left fun k hk => ih k ((f.children_of_mem hnodup hi).2.2.1 hk)
    have hplain := hplain i hi
    rw [treeTo, treeTo, h.content i hi, h.label i hi, f.children_agree hnodup h hi, hkids]
    cases hcontent : s.content? i with
    | none => rfl
    | some content =>
      cases content with
      | reference target => exact absurd hcontent (hplain target)
      | _ => rfl

/-- The siblings `ids`, which with all that hangs from them are `ns`, read as the trees `ts`. None
of the nodes is a reference, so nothing else is read. -/
structure Reads (s : Store) (ids ns : List NodeId) (ts : List JsonTree) : Prop where
  plain : ∀ i ∈ ns, ∀ target, s.content? i ≠ some (.reference target)
  trees : ∀ n, JsonTree.nodeCounts ts ≤ n → ids.map (s.treeTo n) = ts

namespace Reads

theorem nil (s : Store) : s.Reads [] [] [] :=
  ⟨fun _ hi => (nomatch hi), fun _ _ => rfl⟩

theorem agree (r : s.Reads ids ns ts) (f : s.Forest ids ns) (hnodup : ns.Nodup)
    (h : Agree s t ids ns) : t.Reads ids ns ts where
  plain i hi target := by
    rw [h.content i hi]
    exact r.plain i hi target
  trees n hn := by
    rw [← r.trees n hn]
    exact List.map_congr_left fun i hi => f.treeTo_agree hnodup r.plain h n i (f.subset hi)

theorem append (r : s.Reads ids ns ts) (r' : s.Reads js ms us) :
    s.Reads (ids ++ js) (ns ++ ms) (ts ++ us) where
  plain i hi := by
    rcases List.mem_append.1 hi with hi | hi
    · exact r.plain i hi
    · exact r'.plain i hi
  trees n hn := by
    rw [JsonTree.nodeCounts_append] at hn
    rw [List.map_append, r.trees n (by omega), r'.trees n (by omega)]

/-- A sibling that is put behind the last one is read behind it. -/
theorem push (r : t.Reads ids ns ts) (g : Grown s t ids ns) (r' : u.Reads [id] ms us)
    (g' : Grown t u [id] ms) :
    (OpenChain.push ⟨ids.head?, ids.getLast?⟩ id u).2.Reads (ids ++ [id]) (ns ++ ms) (ts ++ us) := by
  have hold : Agree t u ids ns := g'.keeps.agree g.forest.has
  have hforest : u.Forest ids ns := g.forest.of_cells g.nodup fun i hi =>
    g'.keeps.cell (g.forest.has i hi)
  have r₁ : u.Reads ids ns ts := r.agree g.forest g.nodup hold
  have hdisjoint : ∀ i ∈ ns, i ∉ ms := fun i hi hmem => g'.fresh i hmem (g.forest.has i hi)
  rcases List.eq_nil_or_concat ids with rfl | ⟨xs, last, hids⟩
  · cases g.forest
    exact r₁.append r'
  · rw [List.concat_eq_append] at hids
    have hpush : (OpenChain.push ⟨ids.head?, ids.getLast?⟩ id u).2 = u.link last id := by
      rw [hids, List.getLast?_concat]
      rfl
    have hlast : last ∈ ids := by
      rw [hids]
      simp
    have hid : id ∈ ms := g'.forest.subset List.mem_cons_self
    rw [hpush]
    refine (r₁.agree hforest g.nodup ?_).append (r'.agree g'.forest g'.nodup ?_)
    · exact agree_link hforest.has (fun _ => hlast) fun hmem => absurd hid (hdisjoint id hmem)
    · exact agree_link g'.forest.has
        (fun hmem => absurd hmem (hdisjoint last (g.forest.subset hlast)))
        fun _ => List.mem_cons_self

/-- A node with siblings as its children is read as what its content makes of their trees. -/
theorem root {content : Content} {x : JsonTree} (r : s.Reads ids ns ts)
    (hcontent : s.content? id = some content) (hplain : ∀ target, content ≠ .reference target)
    (hcount : x.nodeCount = JsonTree.nodeCounts ts + 1)
    (hread : ∀ n, ids.map (s.treeTo n) = ts → s.treeTo (n + 1) id = x) :
    s.Reads [id] (ns ++ [id]) [x] := by
  refine ⟨fun i hi target => ?_, fun n hn => ?_⟩
  · rcases List.mem_append.1 hi with hi | hi
    · exact r.plain i hi target
    · rw [List.mem_singleton.1 hi, hcontent]
      exact fun h => hplain target (Option.some.inj h)
  · rw [JsonTree.nodeCounts, JsonTree.nodeCounts, hcount] at hn
    obtain ⟨n, rfl⟩ : ∃ m, n = m + 1 := Nat.exists_eq_add_one.2 (by omega)
    rw [List.map_singleton, hread n (r.trees n (by omega))]

/-- A new container that takes in siblings reads as the container of what they read as. -/
theorem fill {l : Label} {content : Content} {container : Label → List JsonTree → JsonTree}
    (hcontainer : content.isContainer = true)
    (hcount : ∀ l ts, (container l ts).nodeCount = JsonTree.nodeCounts ts + 1)
    (hread : ∀ (v : Store) (child : Option NodeId) (n : Nat),
      v.content? id = some (content.withChild child) →
        v.treeTo (n + 1) id = container (v.label id) ((v.children id).map (v.treeTo n)))
    (g : Grown s t [id] [id]) (hcontent : t.content? id = some content) (hlabel : t.label id = l)
    (g' : Grown t u ids ns) (r : u.Reads ids ns ts) :
    (u.setChild id ids.head?).Reads [id] (ns ++ [id]) [container l ts] := by
  have hhas : t.Has id := g.forest.has id List.mem_cons_self
  have hcell : u.cells[id]? = t.cells[id]? := g'.keeps.cell hhas
  have hne : ∀ i ∈ ns, id ≠ i := by
    intro i hi heq
    subst heq
    exact g'.fresh id hi hhas
  have hagree : Agree u (u.setChild id ids.head?) ids ns :=
    { has := fun i hi => (has_setChild ..).2 (g'.forest.has i hi)
      content := fun i hi => by rw [content?_setChild, if_neg (hne i hi)]
      label := fun i _ => label_setChild ..
      prev := fun i _ _ => prev?_setChild ..
      next := fun i _ _ => next?_setChild .. }
  have r' := r.agree g'.forest g'.nodup hagree
  have hcontent' : (u.setChild id ids.head?).content? id = some (content.withChild ids.head?) := by
    rw [content?_setChild, if_pos rfl, content?_congr hcell, hcontent]
    rfl
  have hlabel' : (u.setChild id ids.head?).label id = l := by
    rw [label_setChild, label_congr hcell, hlabel]
  have hchildren : (u.setChild id ids.head?).children id = ids := by
    refine children_eq (g'.linked.congr (fun i hi => (has_setChild ..).2 (g'.linked.has i hi))
      (fun i _ => prev?_setChild ..) fun i _ => next?_setChild ..) ?_
    have hsome : u.IsContainer id := ⟨content, by rw [content?_congr hcell, hcontent], hcontainer⟩
    exact child?_setChild_self hsome _
  have hplain : ∀ target, content.withChild ids.head? ≠ .reference target := by
    cases content <;> simp [Content.withChild, Content.isContainer] at hcontainer ⊢
  refine r'.root hcontent' hplain (hcount l ts) fun n hkids => ?_
  rw [hread _ _ _ hcontent', hlabel', hchildren, hkids]

end Reads

/-! ## Room in the arena -/

/-- The arena, if there is one, gives as many more nodes. -/
def HasRoom (s : Store) (n : Nat) : Prop :=
  ∀ a ∈ s.arena, ∀ limit ∈ a.maxNodes, (a.live.length + n : Int) ≤ limit

theorem HasRoom.mono {m n : Nat} (h : s.HasRoom n) (hmn : m ≤ n) : s.HasRoom m := by
  intro a ha limit hlimit
  have := h a ha limit hlimit
  omega

theorem hasRoom_zero_iff : s.HasRoom 0 ↔ s.Within := by
  unfold HasRoom Within
  simp only [Int.natCast_zero, Int.add_zero]

theorem hasRoom_one_iff : s.HasRoom 1 ↔ s.isFull = false := by
  obtain ⟨cells, arena⟩ := s
  rcases arena with _ | ⟨live, _ | limit, bytes⟩
  · simp [HasRoom, isFull]
  · simp [HasRoom, isFull, Arena.isFull]
  · simp only [HasRoom, isFull, Arena.isFull, Option.mem_some_iff, forall_eq', decide_eq_false_iff_not]
    omega

/-- Nodes that were taken are counted against the room. -/
theorem Grown.hasRoom_iff (g : Grown s t ids ns) (n : Nat) :
    t.HasRoom n ↔ s.HasRoom (ns.length + n) := by
  obtain ⟨taken, hperm, harena⟩ := g.taken
  unfold HasRoom
  rw [harena]
  cases s.arena with
  | none => simp
  | some a =>
    simp only [Option.map_some, Option.mem_some_iff, forall_eq', List.length_append,
      hperm.length_eq]
    constructor
    · intro h limit hlimit
      have := h limit hlimit
      omega
    · intro h limit hlimit
      have := h limit hlimit
      omega

/-! ## Building what is read -/

/-- What building a tree comes to: fresh nodes that read as the tree and are as many as it has, or
the arena has no room for that many. -/
def BuiltAs (s : Store) (tree : JsonTree) : Option NodeId × Store → Prop
  | (some id, t) =>
    ∃ ns, Grown s t [id] ns ∧ t.Reads [id] ns [tree] ∧ ns.length = tree.nodeCount
  | (none, _) => ¬ s.HasRoom tree.nodeCount

/-- What building siblings comes to, all of them together. -/
def BuiltChainAs (s : Store) (ts : List JsonTree) : Option OpenChain × Store → Prop
  | (some chain, t) =>
    ∃ ids ns, chain = ⟨ids.head?, ids.getLast?⟩ ∧ Grown s t ids ns ∧ t.Reads ids ns ts ∧
      ns.length = JsonTree.nodeCounts ts
  | (none, _) => ¬ s.HasRoom (JsonTree.nodeCounts ts)

theorem built_as_scalar (l : Label) (v : Scalar) (s : Store) :
    BuiltAs s (.scalar l v) (s.createAs l (.scalar v)) := by
  have hchild : (Content.scalar v).child? = none := rfl
  rcases createAs_cases hchild l s with ⟨h, hfull⟩ | ⟨id, t, h, g, -, hcontent, hlabel⟩
  · rw [h]
    intro hroom
    rw [hasRoom_one_iff.1 hroom] at hfull
    cases hfull
  · rw [h]
    refine ⟨[id], g, ⟨fun i hi target => ?_, fun n hn => ?_⟩, rfl⟩
    · rw [List.mem_singleton.1 hi, hcontent]
      exact fun h => nomatch h
    · obtain ⟨n, rfl⟩ : ∃ m, n = m + 1 := Nat.exists_eq_add_one.2 hn
      rw [List.map_singleton, treeTo, hcontent, hlabel]

/-- A container is built with all of its children, or there is no room for all of them. -/
theorem built_as_fill (container : Label → List JsonTree → JsonTree) {content : Content}
    (hchild : content.child? = none) (hcontainer : content.isContainer = true)
    (hcount : ∀ l ts, (container l ts).nodeCount = JsonTree.nodeCounts ts + 1)
    (hread : ∀ (v : Store) (id : NodeId) (child : Option NodeId) (n : Nat),
      v.content? id = some (content.withChild child) →
        v.treeTo (n + 1) id = container (v.label id) ((v.children id).map (v.treeTo n)))
    (l : Label) {build : Store → Option OpenChain × Store}
    (hbuild : ∀ t, BuiltChainAs t ts (build t)) (s : Store) :
    BuiltAs s (container l ts) (Store.fill build (s.createAs l content)) := by
  rcases createAs_cases hchild l s with ⟨h, hfull⟩ | ⟨id, t, h, g, -, hcontent, hlabel⟩
  · rw [h]
    intro hroom
    rw [hcount] at hroom
    rw [hasRoom_one_iff.1 (hroom.mono (by omega))] at hfull
    cases hfull
  · have hkids := hbuild t
    rw [h]
    rcases hr : build t with ⟨_ | chain, u⟩
    · rw [hr] at hkids
      rw [fill_of_refused hr]
      intro hroom
      rw [hcount] at hroom
      exact hkids ((g.hasRoom_iff _).2 (hroom.mono (by rw [List.length_singleton]; omega)))
    · rw [hr] at hkids
      obtain ⟨ids, ns, rfl, g', r, hlength⟩ := hkids
      rw [fill_of_built hr]
      refine ⟨ns ++ [id], g.fill ⟨content, hcontent, hcontainer⟩ g', ?_, ?_⟩
      · exact r.fill hcontainer hcount (fun v => hread v id) g hcontent hlabel g'
      · rw [List.length_append, hlength, List.length_singleton, hcount]

mutual

/-- A tree is built as its copy under the given label, or there is no room for all of it. -/
theorem built_as_buildTree (t : JsonTree) (l : Label) (s : Store) :
    BuiltAs s (t.copy.withLabel l) (buildTree l t s) := by
  cases t with
  | scalar _ v =>
    rw [buildTree]
    exact built_as_scalar l v s
  | array _ items =>
    rw [buildTree]
    refine built_as_fill .array rfl rfl (fun _ _ => rfl) (fun v id child n h => ?_) l
      (fun t => built_as_buildSiblings items (.refl t) (.nil t) rfl) s
    rw [treeTo, h]
    rfl
  | object _ members =>
    rw [buildTree]
    refine built_as_fill .object rfl rfl (fun _ _ => rfl) (fun v id child n h => ?_) l
      (fun t => built_as_buildSiblings members (.refl t) (.nil t) rfl) s
    rw [treeTo, h]
    rfl
  | reference _ target =>
    rw [buildTree, JsonTree.copy, JsonTree.withLabel_withLabel]
    exact built_as_buildTree target l s

/-- Trees are built behind siblings as their copies, or there is no room for all of them. -/
theorem built_as_buildSiblings (us : List JsonTree) {s t : Store} {ids ns : List NodeId}
    {ts : List JsonTree} (g : Grown s t ids ns) (r : t.Reads ids ns ts)
    (hlength : ns.length = JsonTree.nodeCounts ts) :
    BuiltChainAs s (ts ++ JsonTree.copyAll us)
      (buildSiblings us ⟨ids.head?, ids.getLast?⟩ t) := by
  cases us with
  | nil =>
    rw [buildSiblings, JsonTree.copyAll, List.append_nil]
    exact ⟨ids, ns, rfl, g, r, hlength⟩
  | cons u us =>
    have hfirst := built_as_buildTree u u.label t
    rw [← u.label_copy, JsonTree.withLabel_label, u.label_copy] at hfirst
    have hcount : JsonTree.nodeCounts (ts ++ u.copy :: JsonTree.copyAll us) =
        ns.length + (u.copy.nodeCount + JsonTree.nodeCounts (JsonTree.copyAll us)) := by
      rw [JsonTree.nodeCounts_append, hlength, JsonTree.nodeCounts]
    rw [buildSiblings, JsonTree.copyAll]
    rcases hr : buildTree u.label u t with ⟨_ | id, v⟩
    · rw [hr] at hfirst
      intro hroom
      rw [hcount] at hroom
      exact hfirst ((g.hasRoom_iff _).2 (hroom.mono (by omega)))
    · rw [hr] at hfirst
      obtain ⟨ms, g', r', hms⟩ := hfirst
      have hlength' : (ns ++ ms).length = JsonTree.nodeCounts (ts ++ [u.copy]) := by
        rw [List.length_append, hlength, hms, JsonTree.nodeCounts_append]
        rfl
      have hrest := built_as_buildSiblings us (g.push g') (r.push g r' g') hlength'
      rw [List.append_assoc] at hrest
      simp only [OpenChain.extend, OpenChain.push_fst]
      exact hrest

end

/-! ## Duplicates -/

/-- The node `copy` of the store `t` is the root of a deep copy of what hangs from the node `id` of
the store `s`. -/
structure DeepCopy (s : Store) (id : NodeId) (t : Store) (copy : NodeId) : Prop where
  /-- Kinds, payloads and labels are those of the copied nodes, in the same order. A reference is
  copied as its target, under its own label. -/
  tree : t.tree copy = (s.tree id).copy
  prev : t.prev? copy = none
  next : t.next? copy = none
  /-- The children of every container are linked in both directions. -/
  links : ∀ p ∈ t.owned copy, t.Linked none (t.children p) none
  nodup : (t.owned copy).Nodup
  plain : ∀ i ∈ t.owned copy, ∀ target, t.content? i ≠ some (.reference target)
  fresh : ∀ i ∈ t.owned copy, ¬ s.Has i
  /-- No node from before is changed. -/
  keeps : s.Extends t
  /-- The copy has the same text, or fails to be written in the same way. -/
  print : ∀ options budget,
    (t.tree copy).print options budget = (s.tree id).print options budget

theorem Reads.treeTo_eq {x : JsonTree} (r : s.Reads [id] ns [x]) {n : Nat}
    (hn : JsonTree.nodeCounts [x] ≤ n) : s.treeTo n id = x := by
  have := r.trees n hn
  rwa [List.map_singleton, List.singleton_inj] at this

/-- Nodes that read as a tree are no fewer than the tree has, so the tree is read whole. -/
theorem Reads.tree_eq {x : JsonTree} (r : s.Reads [id] ns [x]) (g : s.Forest [id] ns)
    (hnodup : ns.Nodup) (hlength : ns.length = x.nodeCount) : s.tree id = x := by
  refine r.treeTo_eq ?_
  have := length_le_size hnodup g.has
  rw [JsonTree.nodeCounts, JsonTree.nodeCounts]
  omega

theorem deepCopy_of_built {copy : NodeId} (g : Grown s t [copy] ns)
    (r : t.Reads [copy] ns [(s.tree id).copy]) (hlength : ns.length = (s.tree id).copy.nodeCount) :
    s.DeepCopy id t copy := by
  have htree := r.tree_eq g.forest g.nodup hlength
  obtain ⟨-, hprev, hnext⟩ := Linked.singleton_iff.1 g.linked
  refine ⟨htree, hprev, hnext, g.linked_owned, g.nodup_owned, fun i hi => ?_, g.fresh_owned,
    g.keeps, fun options budget => ?_⟩
  · exact r.plain i (g.owned_perm.subset hi)
  · rw [htree, JsonTree.print_copy]

theorem built_as_duplicate (id : NodeId) (s : Store) :
    BuiltAs s (s.tree id).copy (s.duplicate true id) := by
  have h := built_as_buildTree (s.tree id) (s.tree id).label s
  rwa [← (s.tree id).label_copy, JsonTree.withLabel_label, (s.tree id).label_copy] at h

/-- A deep copy is refused exactly if the arena has no room for all of its nodes. -/
theorem duplicate_refused_iff (id : NodeId) (s : Store) :
    (s.duplicate true id).1 = none ↔ ¬ s.HasRoom (s.tree id).copy.nodeCount := by
  have hwithin := built_duplicate true id s
  have hbuilt := built_as_duplicate id s
  rcases hr : s.duplicate true id with ⟨_ | copy, t⟩ <;> rw [hr] at hbuilt hwithin
  · exact ⟨fun _ => hbuilt, fun _ => rfl⟩
  · obtain ⟨ns, g, -, hlength⟩ := hbuilt
    have hroom : s.HasRoom (s.tree id).copy.nodeCount := by
      rw [← hlength]
      exact (g.hasRoom_iff 0).1 (hasRoom_zero_iff.2 hwithin.2)
    exact ⟨fun h => (nomatch h), fun h => absurd hroom h⟩

theorem exists_deepCopy {id : NodeId} (h : s.HasRoom (s.tree id).copy.nodeCount) :
    ∃ copy t, s.duplicate true id = (some copy, t) ∧ s.DeepCopy id t copy := by
  have hbuilt := built_as_duplicate id s
  rcases hr : s.duplicate true id with ⟨_ | copy, t⟩ <;> rw [hr] at hbuilt
  · exact absurd h hbuilt
  · obtain ⟨ns, g, r, hlength⟩ := hbuilt
    exact ⟨copy, t, rfl, deepCopy_of_built g r hlength⟩

/-- **A deep copy is faithful and a tree of its own.** Whatever hangs from a node, with room for all
nodes of its copy the copy is made: it reads as the tree with each reference replaced by its target,
is linked in both directions, shares no node with the store, leaves every node of the store as it
was, and has the same text. A copy of the copy reads as the copy. -/
theorem duplicate_deep (s : Store) (id : NodeId) (h : s.HasRoom (s.tree id).copy.nodeCount) :
    ∃ copy t, s.duplicate true id = (some copy, t) ∧ s.DeepCopy id t copy ∧
      (t.HasRoom (t.tree copy).nodeCount →
        ∃ again u, t.duplicate true copy = (some again, u) ∧ t.DeepCopy copy u again ∧
          u.tree again = t.tree copy) := by
  obtain ⟨copy, t, hduplicate, hcopy⟩ := exists_deepCopy h
  refine ⟨copy, t, hduplicate, hcopy, fun hroom => ?_⟩
  have hsame : (t.tree copy).copy = t.tree copy := by
    rw [hcopy.tree, JsonTree.copy_copy]
  obtain ⟨again, u, hagain, hcopy'⟩ := exists_deepCopy (hsame.symm ▸ hroom)
  exact ⟨again, u, hagain, hcopy', hcopy'.tree.trans hsame⟩

/-- The copy of an object with a number whose integer was set by hand, and with a reference under a
lent name to an array that holds a raw value. -/
theorem duplicate_deep_reference :
    let number : JsonTree := .scalar (.owned "n") (.number ⟨.finite (FiniteDouble.zero false), 9⟩)
    let raw : JsonTree := .scalar .none (.raw "x")
    let s := ((Store.empty (some ⟨[], some 10, .unlimited⟩)).graft
      (.object .none [number, .reference (.borrowed "r") (.array .none [raw])])).2
    s.HasRoom (s.tree 0).copy.nodeCount ∧
      ∃ copy t, s.duplicate true 0 = (some copy, t) ∧
        t.tree copy = .object .none [number, .array (.borrowed "r") [raw]] := by
  intro number raw s
  have htree : s.tree 0 =
      .object .none [number, .reference (.borrowed "r") (.array .none [raw])] := by
    rfl
  have hroom : s.HasRoom (s.tree 0).copy.nodeCount := by
    rw [htree]
    intro a ha limit hlimit
    cases ha
    cases hlimit
    decide
  obtain ⟨copy, t, hduplicate, hcopy, -⟩ := duplicate_deep s 0 hroom
  refine ⟨hroom, copy, t, hduplicate, ?_⟩
  rw [hcopy.tree, htree]
  rfl

end Store

end LinkedJson
