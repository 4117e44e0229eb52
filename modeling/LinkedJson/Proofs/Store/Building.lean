import LinkedJson.Proofs.Store.Splicing

/-!
# Building trees

A tree that is built is a growth of the store: its nodes are fresh, hang from its root, and are
counted once each. A tree of which some node is refused leaves nothing but bare cells, whichever
node it is and however much of the tree was there already (`built_buildTree`).
-/

namespace LinkedJson.Store

variable {s t u : Store} {id : NodeId} {ids ns : List NodeId}

/-! ## Containers before their children -/

/-- A container without children takes in siblings that were taken behind it. -/
theorem Grown.fill (h : Grown s t [id] [id]) (hcontainer : t.IsContainer id)
    (h' : Grown t u ids ns) : Grown s (u.setChild id ids.head?) [id] (ns ++ [id]) := by
  have hhas : t.Has id := h.forest.has id List.mem_cons_self
  have hid : ¬ s.Has id := h.fresh id List.mem_cons_self
  have hnot : id ∉ ns := fun hmem => h'.fresh id hmem hhas
  have hcell : u.cells[id]? = t.cells[id]? := h'.keeps.cell hhas
  obtain ⟨-, hprev, hnext⟩ := Linked.singleton_iff.1 h.linked
  have hkids : (u.setChild id ids.head?).Linked none ids none :=
    h'.linked.congr (fun i hi => (has_setChild ..).2 (h'.linked.has i hi))
      (fun i _ => prev?_setChild ..) fun i _ => next?_setChild ..
  have hbelow : (u.setChild id ids.head?).Forest ids ns := by
    refine h'.forest.congr h'.nodup (fun i hi => (has_setChild ..).2 (h'.forest.has i hi))
      (fun i hi => ?_) (fun i _ _ => prev?_setChild ..) fun i _ _ => next?_setChild ..
    apply child?_setChild_of_ne
    intro heq
    subst heq
    exact hnot hi
  refine ⟨(h.keeps.trans h'.keeps).modify hid _, ?_, ?_, ?_, ?_, ?_, ?_⟩
  · refine Linked.singleton_iff.2 ⟨(has_setChild ..).2 (h'.keeps.has hhas), ?_, ?_⟩
    · rw [prev?_setChild, prev?_congr hcell, hprev]
    · rw [next?_setChild, next?_congr hcell, hnext]
  · refine .cons ((has_setChild ..).2 (h'.keeps.has hhas)) ?_ hkids hbelow .nil
    exact child?_setChild_self (hcontainer.congr (content?_congr hcell)) _
  · exact List.nodup_append.2 ⟨h'.nodup, h.nodup, fun i hi j hj heq =>
      hnot (List.mem_singleton.1 hj ▸ heq ▸ hi)⟩
  · intro i hi hs
    rcases List.mem_append.1 hi with hi | hi
    · exact h'.fresh i hi (h.keeps.has hs)
    · exact h.fresh i hi hs
  · intro i hi hs hmem
    rw [List.mem_append, not_or] at hmem
    have hu : u.Has i := (has_setChild ..).1 hi
    have hbare : u.Bare i := by
      by_cases ht : t.Has i
      · exact (h.bare i ht hs hmem.2).of_cell (h'.keeps.cell ht)
      · exact h'.bare i hu ht hmem.1
    refine ⟨(prev?_setChild ..).trans hbare.prev, (next?_setChild ..).trans hbare.next, ?_⟩
    rw [child?_setChild_of_ne, hbare.child]
    intro heq
    subst heq
    exact hmem.2 List.mem_cons_self
  · obtain ⟨taken, hperm, harena⟩ := h.taken
    obtain ⟨taken', hperm', harena'⟩ := h'.taken
    refine ⟨taken' ++ taken, hperm'.append hperm, ?_⟩
    change u.arena = _
    rw [harena', harena]
    cases s.arena <;> simp

/-! ## Outcomes -/

/-- What an operation that makes a tree leaves: a fresh tree that the arena had room for, or no
nodes but bare cells. -/
def Built (s : Store) : Option NodeId × Store → Prop
  | (some id, t) => (∃ ns, Grown s t [id] ns) ∧ t.Within
  | (none, t) => Grown s t [] []

/-- What an operation that makes siblings leaves, counted from the store `s` where the first of them
was made. The last ones were made in `t`. -/
def BuiltChain (s t : Store) : Option OpenChain × Store → Prop
  | (some chain, u) =>
    (∃ ids ns, Grown s u ids ns ∧ chain = ⟨ids.head?, ids.getLast?⟩) ∧ (t.Within → u.Within)
  | (none, u) => Grown s u [] []

theorem BuiltChain.of_within {r : Option OpenChain × Store} (h : BuiltChain s u r)
    (hwithin : t.Within → u.Within) : BuiltChain s t r := by
  obtain ⟨_ | chain, v⟩ := r
  · exact h
  · obtain ⟨hchain, hwithin'⟩ := h
    exact ⟨hchain, fun ht => hwithin' (hwithin ht)⟩

/-- The outcome of taking one node. -/
theorem built_create? {content : Content} (hchild : content.child? = none) :
    Built s ((s.create? content).map Prod.fst, ((s.create? content).map Prod.snd).getD s) := by
  cases hcreate : s.create? content with
  | none => exact Grown.refl s
  | some r =>
    obtain ⟨id, t⟩ := r
    obtain ⟨hfull, -, ht⟩ := create?_eq_some_iff.1 hcreate
    refine ⟨⟨_, Grown.create (.refl s) hchild hcreate⟩, ?_⟩
    rw [ht]
    exact within_adopt hfull _

/-- The outcome of reading a document. -/
theorem built_read (options : ReadOptions) (bytes : List UInt8) (s : Store) :
    Built s ((s.read options bytes).1.toOption.map Prod.fst, (s.read options bytes).2) := by
  rcases hread : s.read options bytes with ⟨e | ⟨id, stop⟩, t⟩
  · exact read_error hread
  · exact read_ok hread

/-- The outcome of taking one node under a label. -/
theorem createAs_cases {content : Content} (hchild : content.child? = none) (l : Label)
    (s : Store) :
    (s.createAs l content = (none, s) ∧ s.isFull = true) ∨
      ∃ id t, s.createAs l content = (some id, t) ∧ Grown s t [id] [id] ∧ t.Within ∧
        t.content? id = some content ∧ t.label id = l := by
  unfold createAs
  cases hcreate : s.create? content with
  | none =>
    refine .inl ⟨rfl, ?_⟩
    unfold create? take? at hcreate
    cases hfull : s.isFull with
    | true => rfl
    | false =>
      rw [hfull] at hcreate
      cases hcreate
  | some r =>
    obtain ⟨id, t⟩ := r
    have g : Grown s t [id] [id] := Grown.create (.refl s) hchild hcreate
    have hhas : t.Has id := g.forest.has id List.mem_cons_self
    obtain ⟨hfull, rfl, rfl⟩ := create?_eq_some_iff.1 hcreate
    have hwithin := within_adopt hfull (.standalone content)
    refine .inr ⟨_, _, rfl, g.setLabel l (Nat.lt_irrefl _), hwithin, ?_, ?_⟩
    · rw [content?_setLabel, content?, getElem?_adopt, if_pos rfl]
      rfl
    · rw [label_setLabel, if_pos ⟨rfl, hhas⟩]

theorem built_createAs {content : Content} (hchild : content.child? = none) (l : Label) :
    Built s (s.createAs l content) := by
  rcases createAs_cases hchild l s with ⟨h, -⟩ | ⟨id, t, h, g, hwithin, -, -⟩
  · rw [h]
    exact Grown.refl s
  · rw [h]
    exact ⟨⟨_, g⟩, hwithin⟩

/-- A container is given back if one of its children is refused, and takes them in otherwise. -/
theorem built_fill {content : Content} (hchild : content.child? = none)
    (hcontainer : content.isContainer = true) (l : Label)
    {build : Store → Option OpenChain × Store} (hbuild : ∀ t, BuiltChain t t (build t)) :
    Built s (fill build (s.createAs l content)) := by
  rcases createAs_cases hchild l s with ⟨h, -⟩ | ⟨id, t, h, g, hwithin, hcontent, -⟩
  · rw [h]
    exact Grown.refl s
  · have hkids := hbuild t
    rw [h]
    rcases hr : build t with ⟨_ | chain, u⟩
    · rw [hr] at hkids
      rw [fill_of_refused hr]
      exact g.undo hkids
    · rw [hr] at hkids
      obtain ⟨⟨ids, ns, g', rfl⟩, hwithin'⟩ := hkids
      rw [fill_of_built hr]
      exact ⟨⟨_, g.fill ⟨content, hcontent, hcontainer⟩ g'⟩, hwithin' hwithin⟩

/-- A chain is given back if its next sibling is refused. -/
theorem builtChain_extend {r : Option NodeId × Store} (g : Grown s t ids ns) (hr : Built t r) :
    BuiltChain s t (OpenChain.extend ⟨ids.head?, ids.getLast?⟩ r) := by
  obtain ⟨_ | id, u⟩ := r
  · exact g.undo hr
  · obtain ⟨⟨ms, g'⟩, hwithin⟩ := hr
    refine ⟨⟨ids ++ [id], ns ++ ms, g.push g', OpenChain.push_fst ids id u⟩, fun _ => ?_⟩
    exact hwithin.of_arena (OpenChain.arena_push ..)

/-! ## Trees -/

mutual

/-- A tree is built completely or not at all. -/
theorem built_buildTree (t : JsonTree) (l : Label) (s : Store) : Built s (buildTree l t s) := by
  cases t with
  | scalar _ v =>
    rw [buildTree]
    exact built_createAs rfl l
  | array _ items =>
    rw [buildTree]
    exact built_fill rfl rfl l fun t => builtChain_buildSiblings items (.refl t)
  | object _ members =>
    rw [buildTree]
    exact built_fill rfl rfl l fun t => builtChain_buildSiblings members (.refl t)
  | reference _ target =>
    rw [buildTree]
    exact built_buildTree target l s

theorem builtChain_buildSiblings (ts : List JsonTree) {s t : Store} {ids ns : List NodeId}
    (g : Grown s t ids ns) :
    BuiltChain s t (buildSiblings ts ⟨ids.head?, ids.getLast?⟩ t) := by
  cases ts with
  | nil =>
    rw [buildSiblings]
    exact ⟨⟨ids, ns, g, rfl⟩, id⟩
  | cons u ts =>
    have hstep := builtChain_extend g (built_buildTree u u.label t)
    rw [buildSiblings]
    rcases hr : OpenChain.extend ⟨ids.head?, ids.getLast?⟩ (buildTree u.label u t) with
      ⟨_ | chain, t'⟩ <;> rw [hr] at hstep
    · exact hstep
    · obtain ⟨⟨ids', ns', g', rfl⟩, hwithin⟩ := hstep
      exact (builtChain_buildSiblings ts g').of_within hwithin

end

theorem built_createArrayOf (values : List Scalar) (s : Store) :
    Built s (s.createArrayOf values) := by
  have hitems : BuiltChain s s (buildSiblings (values.map (.scalar .none)) .empty s) :=
    builtChain_buildSiblings _ (.refl s)
  unfold createArrayOf
  rcases hr : buildSiblings (values.map (.scalar .none)) .empty s with ⟨_ | chain, t⟩
  · rw [hr] at hitems
    exact hitems
  · rw [hr] at hitems
    obtain ⟨⟨ids, ns, g, rfl⟩, -⟩ := hitems
    dsimp only
    cases hcreate : t.create? (.array ids.head?) with
    | none => exact g.undo (.refl t)
    | some r =>
      obtain ⟨id, u⟩ := r
      obtain ⟨hfull, -, hu⟩ := create?_eq_some_iff.1 hcreate
      refine ⟨⟨_, g.create rfl hcreate⟩, ?_⟩
      rw [hu]
      exact within_adopt hfull _

theorem built_duplicate (deep : Bool) (id : NodeId) (s : Store) : Built s (s.duplicate deep id) :=
  built_buildTree ..

end LinkedJson.Store
