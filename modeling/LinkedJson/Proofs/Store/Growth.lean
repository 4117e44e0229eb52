import LinkedJson.Proofs.Reading.Effects
import LinkedJson.Proofs.Store.Forest
import LinkedJson.Session

/-!
# What reading a document does to the store

`Grown s t ids ns` says that `t` is the store `s` with fresh nodes: the siblings `ids` and all that
hangs from them, which together are `ns`, each counted once by the arena. The cells of `s` are as
they were, and every other fresh cell is bare. The steps of reading combine such growths
(`builder_effects`), and giving back what was taken leaves the growth without nodes.

So a document is read completely or not at all: `Session.parse_all_or_nothing`.
-/

namespace LinkedJson

namespace Store

/-! ## Stores that keep cells -/

/-- The cells of the first store are still there, as they were. -/
structure Extends (s t : Store) : Prop where
  has : ∀ {i}, s.Has i → t.Has i
  cell : ∀ {i}, s.Has i → t.cells[i]? = s.cells[i]?

theorem Extends.refl (s : Store) : s.Extends s :=
  ⟨id, fun _ => rfl⟩

theorem Extends.trans {s t u : Store} (h : s.Extends t) (h' : t.Extends u) : s.Extends u :=
  ⟨fun hi => h'.has (h.has hi), fun hi => (h'.cell (h.has hi)).trans (h.cell hi)⟩

theorem extends_adopt (s : Store) (cell : Cell) : s.Extends (s.adopt cell) := by
  constructor
  · intro i hi
    rw [Has, size_adopt]
    exact Nat.lt_succ_of_lt hi
  · intro i hi
    rw [getElem?_adopt, if_neg (Nat.ne_of_lt hi)]

theorem Extends.modify {s t : Store} {id : NodeId} (h : s.Extends t) (hid : ¬ s.Has id)
    (f : Cell → Cell) : s.Extends (t.modify id f) := by
  constructor
  · intro i hi
    exact (has_modify ..).2 (h.has hi)
  · intro i hi
    have hne : id ≠ i := by
      intro heq
      subst heq
      exact hid hi
    rw [getElem?_modify, if_neg hne]
    exact h.cell hi

/-! ## Taking one node -/

/-- The arena holds no more nodes than it may. -/
def Within (s : Store) : Prop :=
  ∀ a ∈ s.arena, ∀ limit ∈ a.maxNodes, (a.live.length : Int) ≤ limit

theorem Within.of_arena {s t : Store} (h : s.Within) (harena : t.arena = s.arena) : t.Within := by
  unfold Within
  rwa [harena]

theorem create?_eq_some_iff {content : Content} {s t : Store} {id : NodeId} :
    s.create? content = some (id, t) ↔
      s.isFull = false ∧ id = s.cells.size ∧ t = s.adopt (.standalone content) := by
  unfold create? take?
  cases s.isFull with
  | true => simp
  | false => simp [eq_comm]

theorem within_adopt {s : Store} (h : s.isFull = false) (cell : Cell) :
    (s.adopt cell).Within := by
  intro a ha limit hlimit
  obtain ⟨cells, arena⟩ := s
  cases arena with
  | none => cases ha
  | some a₀ =>
    cases ha
    obtain ⟨live, maxNodes, bytes⟩ := a₀
    cases hlimit
    have hlt : ¬ limit ≤ (live.length : Int) := of_decide_eq_false h
    have hlength : ((cells.size :: live).length : Int) = live.length + 1 := by simp
    change ((cells.size :: live).length : Int) ≤ limit
    omega

/-- Striking nodes from a list that begins with them leaves the others. -/
theorem foldl_erase_append {taken ns live : List NodeId} (h : taken.Perm ns) :
    ns.foldl List.erase (taken ++ live) = live := by
  induction ns generalizing taken with
  | nil =>
    rw [h.eq_nil]
    rfl
  | cons n ns ih =>
    have hmem : n ∈ taken := h.symm.subset List.mem_cons_self
    have hperm := h.erase n
    rw [List.erase_cons_head] at hperm
    rw [List.foldl_cons, List.erase_append_left _ hmem, ih hperm]

/-! ## Growth -/

/-- `t` is `s` with the fresh nodes `ns`, which are the siblings `ids` and all that hangs from them.
-/
structure Grown (s t : Store) (ids ns : List NodeId) : Prop where
  keeps : s.Extends t
  linked : t.Linked none ids none
  forest : t.Forest ids ns
  nodup : ns.Nodup
  fresh : ∀ i ∈ ns, ¬ s.Has i
  bare : ∀ i, t.Has i → ¬ s.Has i → i ∉ ns → t.Bare i
  taken : ∃ taken : List NodeId, taken.Perm ns ∧
    t.arena = s.arena.map fun a => { a with live := taken ++ a.live }

namespace Grown

variable {s t u : Store} {ids ns ms : List NodeId} {id : NodeId}

theorem refl (s : Store) : Grown s s [] [] where
  keeps := .refl s
  linked := trivial
  forest := .nil
  nodup := List.nodup_nil
  fresh := fun _ hi => nomatch hi
  bare := fun _ hi hnot => absurd hi hnot
  taken := by
    refine ⟨[], .nil, ?_⟩
    cases s.arena <;> rfl

/-- Nothing was taken: the arena is as it was. -/
theorem arena_eq (h : Grown s t [] []) : t.arena = s.arena := by
  obtain ⟨taken, hperm, harena⟩ := h.taken
  rw [harena, List.perm_nil.1 hperm]
  cases s.arena <;> rfl

/-- A new container takes siblings in; without siblings it is any new node. -/
theorem create (h : Grown s t ids ns) {content : Content} (hchild : content.child? = ids.head?)
    (hcreate : t.create? content = some (id, u)) : Grown s u [id] (ns ++ [id]) := by
  obtain ⟨-, rfl, rfl⟩ := create?_eq_some_iff.1 hcreate
  have hkeeps := t.extends_adopt (.standalone content)
  have hcell : (t.adopt (.standalone content)).cells[t.cells.size]? =
      some (.standalone content) := by
    rw [getElem?_adopt, if_pos rfl]
  have hhas : (t.adopt (.standalone content)).Has t.cells.size := has_iff.2 ⟨_, hcell⟩
  have hsame : ∀ i ∈ ns, (t.adopt (.standalone content)).cells[i]? = t.cells[i]? :=
    fun i hi => hkeeps.cell (h.forest.has i hi)
  have hforest := h.forest.of_cells h.nodup hsame
  have hlinked := h.linked.of_cells fun i hi => hsame i (h.forest.subset hi)
  refine ⟨h.keeps.trans hkeeps, ?_, ?_, ?_, ?_, ?_, ?_⟩
  · refine ⟨hhas, ?_, ?_, trivial⟩
    · rw [prev?, hcell]
      rfl
    · rw [next?, hcell]
      rfl
  · refine .cons hhas ?_ hlinked hforest .nil
    rw [child?, content?, hcell]
    exact hchild
  · refine List.nodup_append.2 ⟨h.nodup, List.nodup_cons.2 ⟨List.not_mem_nil, List.nodup_nil⟩, ?_⟩
    intro i hi j hj heq
    subst heq
    rw [List.mem_singleton.1 hj] at hi
    exact absurd (h.forest.has _ hi) (Nat.lt_irrefl _)
  · intro i hi hs
    rcases List.mem_append.1 hi with hi | hi
    · exact h.fresh i hi hs
    · rw [List.mem_singleton.1 hi] at hs
      exact absurd (h.keeps.has hs) (Nat.lt_irrefl _)
  · intro i hi hs hmem
    rw [List.mem_append, List.mem_singleton, not_or] at hmem
    have ht : t.Has i := by
      rw [Has, size_adopt] at hi
      exact Nat.lt_of_le_of_ne (Nat.le_of_lt_succ hi) hmem.2
    exact (h.bare i ht hs hmem.1).of_cell (hkeeps.cell ht)
  · obtain ⟨taken, hperm, harena⟩ := h.taken
    refine ⟨t.cells.size :: taken, ?_, ?_⟩
    · exact (hperm.cons _).trans (List.perm_append_singleton _ _).symm
    · rw [adopt, harena]
      cases s.arena <;> rfl

/-- A sibling behind the last one, with all that hangs from it. -/
theorem push (h : Grown s t ids ns) (h' : Grown t u [id] ms) :
    Grown s (OpenChain.push ⟨ids.head?, ids.getLast?⟩ id u).2 (ids ++ [id]) (ns ++ ms) := by
  have hsame : ∀ i ∈ ns, u.cells[i]? = t.cells[i]? :=
    fun i hi => h'.keeps.cell (h.forest.has i hi)
  have hforest := (h.forest.of_cells h.nodup hsame).append h'.forest
  have hlinked := h.linked.of_cells fun i hi => hsame i (h.forest.subset hi)
  have hid : id ∈ ms := h'.forest.subset List.mem_cons_self
  have hdisjoint : ∀ i ∈ ns, ∀ j ∈ ms, i ≠ j := by
    intro i hi j hj heq
    subst heq
    exact h'.fresh i hj (h.forest.has i hi)
  have hnodup : (ns ++ ms).Nodup := List.nodup_append.2 ⟨h.nodup, h'.nodup, hdisjoint⟩
  have hfresh : ∀ i ∈ ns ++ ms, ¬ s.Has i := by
    intro i hi hs
    rcases List.mem_append.1 hi with hi | hi
    · exact h.fresh i hi hs
    · exact h'.fresh i hi (h.keeps.has hs)
  have hbare : ∀ i, u.Has i → ¬ s.Has i → i ∉ ns ++ ms → u.Bare i := by
    intro i hi hs hmem
    rw [List.mem_append, not_or] at hmem
    by_cases ht : t.Has i
    · exact (h.bare i ht hs hmem.1).of_cell (h'.keeps.cell ht)
    · exact h'.bare i hi ht hmem.2
  have htaken : ∃ taken : List NodeId, taken.Perm (ns ++ ms) ∧
      u.arena = s.arena.map fun a => { a with live := taken ++ a.live } := by
    obtain ⟨taken, hperm, harena⟩ := h.taken
    obtain ⟨taken', hperm', harena'⟩ := h'.taken
    refine ⟨taken' ++ taken, (hperm'.append hperm).trans List.perm_append_comm, ?_⟩
    rw [harena', harena]
    cases s.arena <;> simp
  have hkeeps := h.keeps.trans h'.keeps
  rcases List.eq_nil_or_concat ids with rfl | ⟨xs, last, hids⟩
  · cases h.forest
    exact ⟨hkeeps, h'.linked, hforest, hnodup, hfresh, hbare, htaken⟩
  · rw [List.concat_eq_append] at hids
    subst hids
    have hpush : (OpenChain.push ⟨(xs ++ [last]).head?, (xs ++ [last]).getLast?⟩ id u).2 =
        u.link last id := by
      rw [List.getLast?_concat]
      rfl
    have hlast : last ∈ ns := h.forest.subset (by simp)
    have hnot : id ∉ xs ++ [last] := fun hmem => hdisjoint id (h.forest.subset hmem) id hid rfl
    rw [hpush]
    refine ⟨?_, hlinked.link h'.linked hnot, ?_, hnodup, hfresh, ?_, htaken⟩
    · refine Extends.modify (Extends.modify hkeeps ?_ _) ?_ _
      · exact hfresh last (List.mem_append_left _ hlast)
      · exact hfresh id (List.mem_append_right _ hid)
    · refine hforest.congr hnodup (fun i hi => (has_link ..).2 (hforest.has i hi))
        (fun i _ => child?_link ..) (fun i _ hi => ?_) fun i _ hi => ?_
      · rw [prev?_link, if_neg]
        intro h
        obtain ⟨rfl, -⟩ := h
        exact hi (by simp)
      · rw [next?_link, if_neg]
        intro h
        obtain ⟨rfl, -⟩ := h
        exact hi (by simp)
    · intro i hi hs hmem
      have hb := hbare i ((has_link ..).1 hi) hs hmem
      refine ⟨?_, ?_, (child?_link ..).trans hb.child⟩
      · rw [prev?_link, if_neg]
        · exact hb.prev
        · intro h
          obtain ⟨rfl, -⟩ := h
          exact hmem (List.mem_append_right _ hid)
      · rw [next?_link, if_neg]
        · exact hb.next
        · intro h
          obtain ⟨rfl, -⟩ := h
          exact hmem (List.mem_append_left _ hlast)

/-- Siblings are given back with all that hangs from them. -/
theorem undo (h : Grown s t ids ns) (h' : Grown t u [] []) :
    Grown s (u.releaseAll ids.head?) [] [] := by
  have hsame : ∀ i ∈ ns, u.cells[i]? = t.cells[i]? :=
    fun i hi => h'.keeps.cell (h.forest.has i hi)
  have hforest := h.forest.of_cells h.nodup hsame
  have hlinked := h.linked.of_cells fun i hi => hsame i (h.forest.subset hi)
  have hkeeps := h.keeps.trans h'.keeps
  rw [hforest.releaseAll_eq hlinked h.nodup]
  refine ⟨⟨?_, ?_⟩, trivial, .nil, List.nodup_nil, (fun _ hi => nomatch hi), ?_, [], .nil, ?_⟩
  · intro i hi
    rw [Has, size_clearAll]
    exact hkeeps.has hi
  · intro i hi
    rw [getElem?_clearAll_of_not_mem fun hmem => h.fresh i hmem hi]
    exact hkeeps.cell hi
  · intro i hi hs _
    rw [Has, size_clearAll] at hi
    by_cases hmem : i ∈ ns
    · exact bare_clearAll hmem
    · refine Bare.of_cell ?_ (getElem?_clearAll_of_not_mem hmem)
      by_cases ht : t.Has i
      · exact (h.bare i ht hs hmem).of_cell (h'.keeps.cell ht)
      · exact h'.bare i hi ht List.not_mem_nil
  · obtain ⟨taken, hperm, harena⟩ := h.taken
    rw [arena_clearAll, h'.arena_eq, harena, Option.map_map]
    congr 1
    funext a
    simp only [Function.comp_apply, foldl_erase_append hperm, List.nil_append]

theorem setLabel (h : Grown s t ids ns) (l : Label) (hid : ¬ s.Has id) :
    Grown s (t.setLabel id l) ids ns := by
  refine ⟨h.keeps.modify hid _, ?_, ?_, h.nodup, h.fresh, ?_, h.taken⟩
  · exact h.linked.congr (fun i hi => (has_modify ..).2 (h.linked.has i hi))
      (fun i _ => prev?_setLabel ..) (fun i _ => next?_setLabel ..)
  · exact h.forest.congr h.nodup (fun i hi => (has_modify ..).2 (h.forest.has i hi))
      (fun i _ => child?_setLabel ..) (fun i _ _ => prev?_setLabel ..) (fun i _ _ => next?_setLabel ..)
  · intro i hi hs hmem
    have hbare := h.bare i ((has_modify ..).1 hi) hs hmem
    exact ⟨(prev?_setLabel ..).trans hbare.prev, (next?_setLabel ..).trans hbare.next,
      (child?_setLabel ..).trans hbare.child⟩

theorem within_setLabel (h : t.Within) (l : Label) : (t.setLabel id l).Within :=
  h

/-- The fresh nodes are what the root of a fresh tree owns. -/
theorem owned_perm (h : Grown s t [id] ns) : (t.owned id).Perm ns :=
  h.forest.owned_perm h.nodup

theorem nodup_owned (h : Grown s t [id] ns) : (t.owned id).Nodup :=
  h.owned_perm.nodup_iff.2 h.nodup

theorem fresh_owned (h : Grown s t [id] ns) : ∀ i ∈ t.owned id, ¬ s.Has i :=
  fun i hi => h.fresh i (h.owned_perm.subset hi)

theorem linked_owned (h : Grown s t [id] ns) :
    ∀ p ∈ t.owned id, t.Linked none (t.children p) none :=
  fun _ hp => (h.forest.children_of_mem h.nodup (h.owned_perm.subset hp)).2.1

end Grown

/-! ## Reading documents -/

/-- Every step of reading a document grows the store, and giving back undoes the growth. -/
theorem builder_effects :
    builder.Effects (fun s t id => (∃ ns, Grown s t [id] ns) ∧ t.Within)
      (fun s t chain => ∃ ids ns, Grown s t ids ns ∧ chain = ⟨ids.head?, ids.getLast?⟩)
      (fun s t => Grown s t [] []) := by
  have container : ∀ {s s₁ : Store} {chain : OpenChain} {id : NodeId} {s₂ : Store} {content},
      (∃ ids ns, Grown s s₁ ids ns ∧ chain = ⟨ids.head?, ids.getLast?⟩) →
      content.child? = chain.head → s₁.create? content = some (id, s₂) →
      (∃ ns, Grown s s₂ [id] ns) ∧ s₂.Within := by
    intro s s₁ chain id s₂ content h hchild hcreate
    obtain ⟨ids, ns, hgrown, rfl⟩ := h
    refine ⟨⟨_, hgrown.create hchild hcreate⟩, ?_⟩
    obtain ⟨hfull, -, rfl⟩ := create?_eq_some_iff.1 hcreate
    exact within_adopt hfull _
  constructor
  · exact Grown.refl
  · intro v s id t h
    exact container ⟨[], [], Grown.refl s, rfl⟩ rfl h
  · intro s
    exact ⟨[], [], Grown.refl s, rfl⟩
  · intro s s₁ s₂ chain id h h'
    obtain ⟨ids, ns, hgrown, rfl⟩ := h
    obtain ⟨⟨ms, hgrown'⟩, -⟩ := h'
    exact ⟨ids ++ [id], ns ++ ms, hgrown.push hgrown', OpenChain.push_fst ids id s₂⟩
  · intro s t id name h
    obtain ⟨⟨ns, hgrown⟩, hwithin⟩ := h
    have hid : ¬ s.Has id := hgrown.fresh id (hgrown.forest.subset List.mem_cons_self)
    exact ⟨⟨ns, hgrown.setLabel _ hid⟩, Grown.within_setLabel hwithin _⟩
  · intro s s₁ chain id t hopen htake
    exact container hopen rfl htake
  · intro s s₁ chain id t hopen htake
    exact container hopen rfl htake
  · intro s s₁ s₂ chain h hundone
    obtain ⟨ids, ns, hgrown, rfl⟩ := h
    exact hgrown.undo hundone
  · intro s t id h
    obtain ⟨⟨ns, hgrown⟩, -⟩ := h
    exact hgrown.undo (.refl t)

/-- A document that is read is a fresh tree, and the arena had room for it. -/
theorem read_ok {options : ReadOptions} {bytes : List UInt8} {s t : Store} {id : NodeId} {stop : Nat}
    (h : s.read options bytes = (.ok (id, stop), t)) : (∃ ns, Grown s t [id] ns) ∧ t.Within :=
  (Builder.read_effect builder_effects options bytes s).1 id stop t h

/-- A document that is not read leaves nothing but bare cells. -/
theorem read_error {options : ReadOptions} {bytes : List UInt8} {s t : Store} {e : ReadFailure}
    (h : s.read options bytes = (.error e, t)) : Grown s t [] [] :=
  (Builder.read_effect builder_effects options bytes s).2 e t h

end Store

namespace Session

/-- **Reading is all or nothing.** If a document cannot be read, for whatever reason, the live nodes
are those from before. If it can, the live nodes are those from before and the nodes of the
document, each once, and the arena holds no more than it may. Both ways every cell from before is as
it was. -/
theorem parse_all_or_nothing (cells : Array Cell) (a : Arena) (last : Option FaultCode)
    (options : ReadOptions) (bytes : List UInt8) :
    let s : Session := ⟨⟨cells, some a⟩, last⟩
    match s.parse options bytes with
    | (.error _, t) => t.store.arena = some a ∧ s.store.Extends t.store
    | (.ok (root, _), t) =>
      (∃ live : List NodeId, t.store.arena = some { a with live } ∧
        live.Perm (t.store.owned root ++ a.live) ∧
        ∀ limit ∈ a.maxNodes, (live.length : Int) ≤ limit) ∧
      (t.store.owned root).Nodup ∧ (∀ i ∈ t.store.owned root, ¬ s.store.Has i) ∧
      s.store.Extends t.store := by
  intro s
  unfold parse
  rcases hread : s.store.read options bytes with ⟨e | ⟨root, stop⟩, t⟩
  · have hgrown := Store.read_error hread
    exact ⟨hgrown.arena_eq, hgrown.keeps⟩
  · obtain ⟨⟨ns, hgrown⟩, hwithin⟩ := Store.read_ok hread
    have howned := hgrown.forest.owned_perm hgrown.nodup
    obtain ⟨taken, hperm, harena⟩ := hgrown.taken
    refine ⟨⟨taken ++ a.live, harena, ?_, ?_⟩, ?_, ?_, hgrown.keeps⟩
    · exact (hperm.trans howned.symm).append_right a.live
    · exact hwithin _ harena
    · exact howned.nodup_iff.2 hgrown.nodup
    · intro i hi
      exact hgrown.fresh i (howned.subset hi)

end Session

end LinkedJson
