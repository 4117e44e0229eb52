import LinkedJson.Proofs.Store.Documents
import LinkedJson.Proofs.Store.Faces
import LinkedJson.Proofs.Writing.ReadTrees

/-!
# Names of children

Items have no names and members have names (`Kind.Fits`). A tree in which this holds everywhere is
`WellNamed`, and so is every tree that is read from a text and every copy of such a tree.

`Store.NamesChildren s p` says it of the children of one node. What a tree passes on to its parts
holds of all nodes that hang from a root (`Enclosed.forall_treeTo`). New nodes read as a tree, so all
nodes of a store name their children again after a well-named tree was built
(`namesChildren_of_built`).
-/

namespace LinkedJson

/-- A label that a child of such a node may have. -/
def Kind.Fits (l : Label) : Kind → Prop
  | .array => l = .none
  | .object => l.key ≠ none
  | _ => True

/-! ## Trees -/

namespace JsonTree

/-- No item has a name and every member has one, in the targets of references as well. -/
inductive WellNamed : JsonTree → Prop
  | scalar (l : Label) (v : Scalar) : WellNamed (.scalar l v)
  | array (l : Label) {items : List JsonTree} :
    (∀ t ∈ items, t.label = .none) → (∀ t ∈ items, t.WellNamed) → WellNamed (.array l items)
  | object (l : Label) {members : List JsonTree} :
    (∀ t ∈ members, t.label.key ≠ none) → (∀ t ∈ members, t.WellNamed) →
      WellNamed (.object l members)
  | reference (l : Label) {target : JsonTree} : target.WellNamed → WellNamed (.reference l target)

/-- The label of the root does not count. -/
theorem WellNamed.withLabel {t : JsonTree} (h : t.WellNamed) (l : Label) :
    (t.withLabel l).WellNamed := by
  cases h with
  | scalar _ v => exact .scalar l v
  | array _ hlabels hitems => exact .array l hlabels hitems
  | object _ hlabels hmembers => exact .object l hlabels hmembers
  | reference _ htarget => exact .reference l htarget

theorem WellNamed.copy {t : JsonTree} (h : t.WellNamed) : t.copy.WellNamed := by
  induction h with
  | scalar l v => exact .scalar l v
  | array l hlabels _ ih =>
    rw [JsonTree.copy, copyAll_eq_map]
    refine .array l (List.forall_mem_map.2 fun t ht => ?_) (List.forall_mem_map.2 ih)
    rw [label_copy]
    exact hlabels t ht
  | object l hlabels _ ih =>
    rw [JsonTree.copy, copyAll_eq_map]
    refine .object l (List.forall_mem_map.2 fun t ht => ?_) (List.forall_mem_map.2 ih)
    rw [label_copy]
    exact hlabels t ht
  | reference l _ ih =>
    rw [JsonTree.copy]
    exact ih.withLabel l

/-- The items or members of a container; other trees have no parts. -/
def parts : JsonTree → List JsonTree
  | array _ ts | object _ ts => ts
  | _ => []

theorem WellNamed.parts {t : JsonTree} (h : t.WellNamed) : ∀ u ∈ t.parts, u.WellNamed := by
  cases h with
  | array _ _ hitems => exact hitems
  | object _ _ hmembers => exact hmembers
  | scalar | reference => exact fun _ hu => nomatch hu

theorem resolve_ne_reference (t : JsonTree) (l : Label) (target : JsonTree) :
    t.resolve ≠ .reference l target := by
  induction t using resolve.induct with
  | case1 _ t ih =>
    rw [resolve]
    exact ih
  | case2 t hplain =>
    rw [resolve.eq_2 t hplain]
    exact hplain l target

theorem wellNamed_copyRoot (t : JsonTree) : t.copyRoot.WellNamed := by
  have hplain := t.resolve_ne_reference
  unfold copyRoot
  cases h : t.resolve with
  | scalar _ v => exact .scalar _ v
  | array _ _ => exact .array _ (List.forall_mem_nil _) (List.forall_mem_nil _)
  | object _ _ => exact .object _ (List.forall_mem_nil _) (List.forall_mem_nil _)
  | reference l target => exact absurd h (hplain l target)

theorem wellNamed_arrayOf (values : List Scalar) :
    (array .none (values.map (.scalar .none))).WellNamed := by
  refine .array .none ?_ ?_
  · exact List.forall_mem_map.2 fun v _ => rfl
  · exact List.forall_mem_map.2 fun v _ => .scalar .none v

end JsonTree

/-- Trees of tokens are well-named. -/
theorem JsonTree.AsRead.wellNamed {t : JsonTree} (h : t.AsRead) : t.WellNamed := by
  induction h with
  | scalar l _ => exact .scalar l _
  | array l hlabels _ ih => exact .array l hlabels ih
  | object l hlabels _ ih =>
    refine .object l (fun t ht => ?_) ih
    obtain ⟨key, hkey, -⟩ := hlabels t ht
    rw [hkey]
    exact Option.some_ne_none _

namespace Store

variable {s t u : Store} {id p : NodeId} {ids ns : List NodeId} {x : JsonTree}

/-! ## Children of a store -/

/-- The labels of the children are those that the kind of the node asks for. -/
def NamesChildren (s : Store) (p : NodeId) : Prop :=
  ∀ k, s.kind? p = some k → ∀ i ∈ s.children p, k.Fits (s.label i)

theorem NamesChildren.of_subset (h : s.NamesChildren p) (hkind : t.kind? p = s.kind? p)
    (hsub : t.children p ⊆ s.children p) (hlabel : ∀ i ∈ t.children p, t.label i = s.label i) :
    t.NamesChildren p := by
  intro k hk i hi
  rw [hlabel i hi]
  exact h k (hkind ▸ hk) i (hsub hi)

theorem namesChildren_of_children_eq_nil (h : s.children p = []) : s.NamesChildren p := by
  intro k _ i hi
  rw [h] at hi
  cases hi

theorem children_eq_nil_of_child? (h : s.child? p = none) : s.children p = [] :=
  children_eq trivial h

@[simp] theorem label_treeTo (s : Store) (n : Nat) (id : NodeId) :
    (s.treeTo (n + 1) id).label = s.label id := by
  rw [treeTo]
  cases hcell : s.cells[id]? with
  | none =>
    rw [content?, label, hcell]
    rfl
  | some cell =>
    rw [content?, hcell]
    cases hcontent : cell.content <;> simp only [Option.map_some, hcontent, JsonTree.label]

/-- The trees of the children are the parts of the tree. -/
theorem parts_treeTo (s : Store) (n : Nat) (p : NodeId) :
    (s.treeTo (n + 1) p).parts = (s.children p).map (s.treeTo n) := by
  have hnone (hchild : s.child? p = none) : [] = (s.children p).map (s.treeTo n) := by
    rw [children_eq_nil_of_child? hchild, List.map_nil]
  rw [treeTo]
  cases hcontent : s.content? p with
  | none => exact hnone (by rw [child?, hcontent]; rfl)
  | some content =>
    cases content with
    | array child => rfl
    | object child => rfl
    | scalar v => exact hnone (by rw [child?, hcontent]; rfl)
    | reference target => exact hnone (by rw [child?, hcontent]; rfl)

/-! ## Ways down from a root -/

/-- The node hangs from the root, with `depth` containers around it. -/
inductive Enclosed (s : Store) (root : NodeId) : (depth : Nat) → NodeId → Prop
  | root : Enclosed s root 0 root
  | child {depth : Nat} {p i : NodeId} :
    Enclosed s root depth p → i ∈ s.children p → Enclosed s root (depth + 1) i

namespace Enclosed

variable {root : NodeId} {depth : Nat}

/-- Everything that hangs from a node of a forest belongs to the forest. -/
theorem mem (h : s.Enclosed root depth p) (f : s.Forest ids ns) (hnodup : ns.Nodup)
    (hroot : root ∈ ns) : p ∈ ns := by
  induction h with
  | root => exact hroot
  | child _ hi ih => exact (f.children_of_mem hnodup ih).2.2.1 hi

/-- What a tree passes on to its parts holds of the trees of all nodes that hang from the root. -/
theorem forall_treeTo {P : JsonTree → Prop} (hP : ∀ t, P t → ∀ u ∈ t.parts, P u) {m : Nat}
    (hroot : ∀ n, m ≤ n → P (s.treeTo n root)) (h : s.Enclosed root depth p) :
    ∀ n, m ≤ n → P (s.treeTo n p) := by
  induction h with
  | root => exact hroot
  | @child _ p i _ hi ih =>
    intro n hn
    refine hP _ (ih (n + 1) (by omega)) _ ?_
    rw [parts_treeTo]
    exact List.mem_map_of_mem hi

/-- The nodes of a tree are all enclosed by its root. -/
theorem exists_of_mem_ownedTo {n : Nat} {id : NodeId} (h : s.Enclosed root depth id)
    (hp : p ∈ s.ownedTo n id) : ∃ k, s.Enclosed root k p := by
  induction n generalizing id depth with
  | zero => cases hp
  | succ n ih =>
    rcases List.mem_cons.1 hp with rfl | hp
    · exact ⟨depth, h⟩
    · obtain ⟨i, hi, hp⟩ := List.mem_flatMap.1 hp
      exact ih (.child h hi) hp

end Enclosed

/-! ## Names of the nodes of a tree -/

theorem namesChildren_of_wellNamed {n : Nat} (h : (s.treeTo (n + 2) p).WellNamed) :
    s.NamesChildren p := by
  intro k hk i hi
  obtain ⟨content, hcontent, rfl⟩ := Option.map_eq_some_iff.1 hk
  rw [treeTo, hcontent] at h
  cases content with
  | array child =>
    cases h with
    | array _ hlabels _ =>
      have hlabel := List.forall_mem_map.1 hlabels i hi
      rwa [label_treeTo] at hlabel
  | object child =>
    cases h with
    | object _ hlabels _ =>
      have hlabel := List.forall_mem_map.1 hlabels i hi
      rwa [label_treeTo] at hlabel
  | scalar v => cases v <;> trivial
  | reference target => trivial

/-- All nodes that read as a well-named tree name their children. -/
theorem Reads.namesChildren (r : s.Reads [id] ns [x]) (f : s.Forest [id] ns) (hnodup : ns.Nodup)
    (hx : x.WellNamed) : ∀ p ∈ ns, s.NamesChildren p := by
  intro p hp
  obtain ⟨depth, h⟩ :=
    Enclosed.exists_of_mem_ownedTo .root ((f.owned_perm hnodup).symm.subset hp)
  refine namesChildren_of_wellNamed (h.forall_treeTo (fun _ => JsonTree.WellNamed.parts)
    (fun n hn => ?_) (JsonTree.nodeCounts [x] + 2) (Nat.le_add_right _ 2))
  rwa [r.treeTo_eq hn]

/-! ## New nodes -/

theorem kind?_congr (h : t.cells[p]? = s.cells[p]?) : t.kind? p = s.kind? p := by
  rw [kind?, content?_congr h, kind?]

/-- The children of nodes from before keep their names. -/
theorem Grown.namesChildren (g : Grown s t ids ns) (h : s.WellLinked)
    (hold : ∀ p, s.NamesChildren p) (hnew : ∀ p ∈ ns, t.NamesChildren p) (p : NodeId) :
    t.NamesChildren p := by
  rcases g.cases p with hp | hp | hp
  · have hchildren := g.children_of_has h hp
    refine (hold p).of_subset (kind?_congr (g.keeps.cell hp)) (fun _ hi => hchildren ▸ hi) ?_
    intro i hi
    rw [hchildren] at hi
    exact label_congr (g.keeps.cell (h.has_of_mem hi))
  · exact hnew p hp
  · exact namesChildren_of_children_eq_nil hp.children_eq_nil

/-- All children are named after a well-named tree was built, or refused. -/
theorem namesChildren_of_built {r : Option NodeId × Store} (h : s.WellLinked)
    (hold : ∀ p, s.NamesChildren p) (hbuilt : Built s r) (htree : BuiltAs s x r)
    (hx : x.WellNamed) (p : NodeId) : r.2.NamesChildren p := by
  rcases r with ⟨_ | id, t⟩
  · exact Grown.namesChildren hbuilt h hold (fun p hp => nomatch hp) p
  · obtain ⟨ns, g, r, -⟩ := htree
    exact g.namesChildren h hold (r.namesChildren g.forest g.nodup hx) p

theorem namesChildren_duplicate (deep : Bool) (id : NodeId) (h : s.WellLinked)
    (hold : ∀ p, s.NamesChildren p)
    (hx : (if deep then s.tree id else (s.tree id).copyRoot).WellNamed) (p : NodeId) :
    (s.duplicate deep id).2.NamesChildren p :=
  namesChildren_of_built h hold (built_duplicate deep id s)
    (built_as_buildTree _ (s.tree id).label s) (hx.copy.withLabel _) p

/-- An array of values is built whole, or there is no room for all of it. -/
theorem built_as_createArrayOf (values : List Scalar) (s : Store) :
    BuiltAs s (.array .none (values.map (.scalar .none))) (s.createArrayOf values) := by
  have hitems := built_as_buildSiblings (values.map (.scalar .none)) (.refl s) (.nil s) rfl
  have hplain : JsonTree.copyAll (values.map (.scalar .none)) = values.map (.scalar .none) := by
    rw [JsonTree.copyAll_eq_map, List.map_map]
    rfl
  rw [hplain, List.nil_append] at hitems
  unfold createArrayOf
  rcases hr : buildSiblings (values.map (.scalar .none)) .empty s with ⟨_ | chain, t⟩ <;>
    rw [show buildSiblings _ ⟨List.head? [], List.getLast? []⟩ s = _ from hr] at hitems
  · intro hroom
    exact hitems (hroom.mono (Nat.le_succ _))
  · obtain ⟨ids, ns, rfl, g, r, hlength⟩ := hitems
    dsimp only
    cases hcreate : t.create? (.array ids.head?) with
    | none =>
      intro hroom
      have hfull : t.isFull = false := by
        rw [← hasRoom_one_iff, g.hasRoom_iff, hlength]
        exact hroom
      rw [create?_eq_some_iff.2 ⟨hfull, rfl, rfl⟩] at hcreate
      cases hcreate
    | some result =>
      obtain ⟨id, u⟩ := result
      refine ⟨_, g.create rfl hcreate, ?_, ?_⟩
      · refine r.create g (by simp) rfl hcreate rfl fun n hcontent hlabel hkids => ?_
        rw [treeTo, hcontent, hlabel, ← hkids]
      · rw [List.length_append, hlength]
        rfl

theorem namesChildren_createArrayOf (values : List Scalar) (h : s.WellLinked)
    (hold : ∀ p, s.NamesChildren p) (p : NodeId) : (s.createArrayOf values).2.NamesChildren p :=
  namesChildren_of_built h hold (built_createArrayOf values s) (built_as_createArrayOf values s)
    (JsonTree.wellNamed_arrayOf values) p

/-! ## Documents -/

theorem namesChildren_read (options : ReadOptions) (bytes : List UInt8) (h : s.WellLinked)
    (hold : ∀ p, s.NamesChildren p) (p : NodeId) : (s.read options bytes).2.NamesChildren p := by
  rcases hread : s.read options bytes with ⟨e | ⟨root, stop⟩, t⟩
  · exact (read_error hread).namesChildren h hold (fun p hp => nomatch hp) p
  · obtain ⟨x, hdocument, ns, g, r, -⟩ := built_as_read hread
    have hx : x.WellNamed := (Document.asRead_of_read hdocument).wellNamed
    exact g.namesChildren h hold (r.namesChildren g.forest g.nodup hx) p

end Store

end LinkedJson
