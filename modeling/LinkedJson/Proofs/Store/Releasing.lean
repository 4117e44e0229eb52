import LinkedJson.Proofs.Store.Ownership
import Mathlib.Logic.Relation
import Mathlib.Order.RelClasses

/-!
# Releasing a node wherever it is

A node may be released that is still among its siblings, and siblings may be released that have no
parent yet. For both it is enough that the links agree with each other and lead nowhere in a circle
(`Interlinked`), as they do in every well-linked store.

Then the nodes that a node leads to hang together as a tree with the node and its later siblings at
the top (`Interlinked.exists_hanging`): no two ways lead to one node, since whatever leads to it is
told by the node itself (`Interlinked.eq_of_leads`). To release the node is to clear each of them
once, and `ReleasedFrom` says what that leaves.
-/

namespace LinkedJson.Store

variable {s t : Store} {i j k n p : NodeId}

/-! ## Links that agree -/

/-- The second node is the next sibling or the first child of the first one. -/
def Leads (s : Store) (i j : NodeId) : Prop :=
  s.next? i = some j ∨ s.child? i = some j

/-- A next sibling names the node before it, a first child names none, no node is the first child of
two, and the links lead nowhere in a circle. -/
structure Interlinked (s : Store) : Prop where
  next : ∀ {i j}, s.next? i = some j → s.Has j ∧ s.prev? j = some i
  first : ∀ {p i}, s.child? p = some i → s.Has i ∧ s.prev? i = none
  parent : ∀ {p q i}, s.child? p = some i → s.child? q = some i → p = q
  grounded : WellFounded fun j i => s.Leads i j

theorem reaches_iff_reflTransGen : s.Reaches i j ↔ Relation.ReflTransGen s.Leads i j := by
  constructor
  · intro h
    induction h with
    | refl => exact .refl
    | child _ hchild ih => exact .tail ih (.inr hchild)
    | next _ hnext ih => exact .tail ih (.inl hnext)
  · intro h
    induction h with
    | refl => exact .refl
    | tail _ hleads ih =>
      rcases hleads with hnext | hchild
      · exact .next ih hnext
      · exact .child ih hchild

/-- Nothing but nodes of a list is reached from one of them if their links do not lead out of it. -/
theorem Reaches.mem_of_closed {ids : List NodeId} (h : s.Reaches n i) (hn : n ∈ ids)
    (hclosed : ∀ i ∈ ids, (∀ j ∈ s.next? i, j ∈ ids) ∧ ∀ j ∈ s.child? i, j ∈ ids) : i ∈ ids := by
  induction h with
  | refl => exact hn
  | child _ hchild ih => exact (hclosed _ ih).2 _ hchild
  | next _ hnext ih => exact (hclosed _ ih).1 _ hnext

/-- A node leads to itself, to what its first child leads to, and to what its next sibling leads
to. -/
theorem reaches_iff_head :
    s.Reaches n i ↔ (∃ c, s.child? n = some c ∧ s.Reaches c i) ∨ i = n ∨
      ∃ c, s.next? n = some c ∧ s.Reaches c i := by
  have hstep : s.Reaches n i ↔ n = i ∨ ∃ c, s.Leads n c ∧ s.Reaches c i := by
    simp only [reaches_iff_reflTransGen]
    exact Relation.ReflTransGen.cases_head_iff
  rw [hstep]
  constructor
  · intro h
    rcases h with rfl | ⟨c, hnext | hchild, hreach⟩
    · exact .inr (.inl rfl)
    · exact .inr (.inr ⟨c, hnext, hreach⟩)
    · exact .inl ⟨c, hchild, hreach⟩
  · intro h
    rcases h with ⟨c, hchild, hreach⟩ | rfl | ⟨c, hnext, hreach⟩
    · exact .inr ⟨c, .inr hchild, hreach⟩
    · exact .inl rfl
    · exact .inr ⟨c, .inl hnext, hreach⟩

theorem WellLinked.acc_of_linked {prev : Option NodeId} {ids : List NodeId} (h : s.WellLinked)
    (hlinked : s.Linked prev ids none)
    (hkids : ∀ i ∈ ids, ∀ k ∈ s.children i, Acc (fun j i => s.Leads i j) k) :
    ∀ i ∈ ids, Acc (fun j i => s.Leads i j) i := by
  induction ids generalizing prev with
  | nil =>
    intro i hi
    cases hi
  | cons id ids ih =>
    obtain ⟨-, -, hnext, hrest⟩ := hlinked
    rw [Option.or_none] at hnext
    have hids := ih hrest fun i hi => hkids i (List.mem_cons_of_mem id hi)
    intro i hi
    rcases List.mem_cons.1 hi with rfl | hi
    · refine ⟨i, fun j hleads => ?_⟩
      rcases hleads with hj | hj
      · exact hids j (List.mem_of_mem_head? (hnext.symm.trans hj))
      · rw [h.head] at hj
        exact hkids i List.mem_cons_self j (List.mem_of_mem_head? hj)
    · exact hids i hi

/-- Links that all lead to later cells lead nowhere in a circle, and whether they agree is seen cell
by cell. -/
theorem interlinked_of_ascending
    (h : ∀ i < s.cells.size,
      (∀ j ∈ s.next? i, i < j ∧ s.Has j ∧ s.prev? j = some i) ∧
      (∀ j ∈ s.child? i, i < j ∧ s.Has j ∧ s.prev? j = none ∧
        ∀ q < s.cells.size, s.child? q = some j → q = i)) : s.Interlinked := by
  have hnext : ∀ {i j}, s.next? i = some j → i < j ∧ s.Has j ∧ s.prev? j = some i := by
    intro i j hj
    by_cases hi : s.Has i
    · exact (h i hi).1 j hj
    · rw [(bare_of_not_has hi).next] at hj
      cases hj
  have hhas : ∀ {i j}, s.child? i = some j → s.Has i := by
    intro i j hj
    by_contra hi
    rw [(bare_of_not_has hi).child] at hj
    cases hj
  have hchild : ∀ {i j}, s.child? i = some j → i < j ∧ s.Has j ∧ s.prev? j = none ∧
      ∀ q < s.cells.size, s.child? q = some j → q = i :=
    fun {i j} hj => (h i (hhas hj)).2 j hj
  refine ⟨fun hj => (hnext hj).2, fun hj => ⟨(hchild hj).2.1, (hchild hj).2.2.1⟩,
    fun {p q i} hp hq => ((hchild hq).2.2.2 p (hhas hp) hp), ?_⟩
  refine Subrelation.wf (r := InvImage (· < ·) fun i => s.cells.size - i) (fun {j i} hleads => ?_)
    (InvImage.wf _ Nat.lt_wfRel.wf)
  have hlt : i < j ∧ j < s.cells.size := by
    rcases hleads with hj | hj
    · exact ⟨(hnext hj).1, (hnext hj).2.1⟩
    · exact ⟨(hchild hj).1, (hchild hj).2.1⟩
  exact Nat.sub_lt_sub_left (by omega) hlt.1

/-- The links of a well-linked store agree. -/
theorem WellLinked.interlinked (h : s.WellLinked) : s.Interlinked := by
  -- only a child has a next sibling
  have hchild_of_next : ∀ {i j}, s.next? i = some j → ∃ p, i ∈ s.children p := by
    intro i j hnext
    by_contra hnone
    have halone : s.Standalone i := by simpa [Standalone] using hnone
    rw [(h.alone halone).2] at hnext
    cases hnext
  have hkids : ∀ p, ∀ i ∈ s.children p, Acc (fun j i => s.Leads i j) i := by
    intro p
    induction p using h.grounded.induction with
    | _ p ih => exact h.acc_of_linked (h.linked p) ih
  refine ⟨fun {i j} hnext => ?_, fun {p i} hchild => ?_, fun {p q i} hp hq => ?_, ⟨fun i => ?_⟩⟩
  · obtain ⟨p, hi⟩ := hchild_of_next hnext
    obtain ⟨xs, ys, hplace, -⟩ := h.exists_place hi
    obtain ⟨-, hys, hprev, -⟩ := h.links_of_child hplace
    exact ⟨h.has_of_mem (h.next_mem hi hnext), hprev j (hys.symm.trans hnext)⟩
  · rw [h.head] at hchild
    obtain ⟨ids, hids⟩ := List.head?_eq_some_iff.1 hchild
    have hlinked := h.linked p
    rw [hids] at hlinked
    exact ⟨hlinked.1, hlinked.2.1⟩
  · rw [h.head] at hp hq
    exact h.single (List.mem_of_mem_head? hp) (List.mem_of_mem_head? hq)
  · refine ⟨i, fun j hleads => ?_⟩
    rcases hleads with hnext | hchild
    · obtain ⟨p, hi⟩ := hchild_of_next hnext
      exact hkids p j (h.next_mem hi hnext)
    · rw [h.head] at hchild
      exact hkids i j (List.mem_of_mem_head? hchild)

namespace Interlinked

/-- Only one node leads to another. -/
theorem eq_of_leads (h : s.Interlinked) (hi : s.Leads i k) (hj : s.Leads j k) : i = j := by
  rcases hi with hi | hi
  · rcases hj with hj | hj
    · exact Option.some.inj ((h.next hi).2.symm.trans (h.next hj).2)
    · exact nomatch (h.next hi).2.symm.trans (h.first hj).2
  · rcases hj with hj | hj
    · exact nomatch (h.first hi).2.symm.trans (h.next hj).2
    · exact h.parent hi hj

theorem not_reaches_of_leads (h : s.Interlinked) (hleads : s.Leads i j) : ¬ s.Reaches j i := by
  intro hreach
  have hcycle : Relation.TransGen (fun j i => s.Leads i j) i i := by
    rw [reaches_iff_reflTransGen] at hreach
    exact Relation.transGen_swap.2 (Relation.TransGen.head' hleads hreach)
  exact h.grounded.transGen.asymmetric i i hcycle hcycle

/-- Of two nodes that lead to a third, one leads to the other. -/
theorem reaches_total (h : s.Interlinked) (hi : s.Reaches i k) (hj : s.Reaches j k) :
    s.Reaches i j ∨ s.Reaches j i := by
  have hunique : Relator.RightUnique (Function.swap s.Leads) := fun _ _ _ hb hc =>
    h.eq_of_leads hb hc
  have htotal := Relation.ReflTransGen.total_of_right_unique hunique
    (reaches_iff_reflTransGen.1 hi).swap (reaches_iff_reflTransGen.1 hj).swap
  rcases htotal with hij | hji
  · exact .inr (reaches_iff_reflTransGen.2 hij.swap)
  · exact .inl (reaches_iff_reflTransGen.2 hji.swap)

/-- No node is reached from two that the same one leads to. -/
theorem eq_of_reaches (h : s.Interlinked) (hi : s.Leads n i) (hj : s.Leads n j)
    (hik : s.Reaches i k) (hjk : s.Reaches j k) : i = j := by
  have key : ∀ {a b : NodeId}, s.Leads n a → s.Leads n b → s.Reaches a b → a = b := by
    intro a b ha hb hab
    rw [reaches_iff_reflTransGen] at hab
    rcases Relation.ReflTransGen.cases_tail hab with heq | ⟨c, hac, hcb⟩
    · exact heq.symm
    · cases h.eq_of_leads hcb hb
      exact absurd (reaches_iff_reflTransGen.2 hac) (h.not_reaches_of_leads ha)
  rcases h.reaches_total hik hjk with hij | hji
  · exact key hi hj hij
  · exact (key hj hi hji).symm

end Interlinked

/-! ## What hangs from a node and its later siblings -/

/-- The siblings `ids` begin with `first` behind `prev`, and `ns` are all nodes that `first` leads
to, in the order in which they are released. -/
structure Hanging (s : Store) (prev first : Option NodeId) (ids ns : List NodeId) : Prop where
  head : ids.head? = first
  linked : s.Linked prev ids none
  forest : s.Forest ids ns
  nodup : ns.Nodup
  mem : ∀ i, i ∈ ns ↔ ∃ r, first = some r ∧ s.Reaches r i

theorem hanging_none (s : Store) (prev : Option NodeId) : s.Hanging prev none [] [] where
  head := rfl
  linked := trivial
  forest := .nil
  nodup := List.nodup_nil
  mem _ := by simp

namespace Interlinked

/-- A node, what hangs from its first child, and what hangs from its next sibling. -/
theorem hanging_cons (h : s.Interlinked) {kids below ids after : List NodeId} (hn : s.Has n)
    (hkids : s.Hanging none (s.child? n) kids below)
    (hids : s.Hanging (some n) (s.next? n) ids after) :
    s.Hanging (s.prev? n) (some n) (n :: ids) (below ++ n :: after) := by
  have hself : n ∉ after := by
    intro hmem
    obtain ⟨c, hnext, hreach⟩ := (hids.mem n).1 hmem
    exact h.not_reaches_of_leads (.inl hnext) hreach
  have hself_below : n ∉ below := by
    intro hmem
    obtain ⟨c, hchild, hreach⟩ := (hkids.mem n).1 hmem
    exact h.not_reaches_of_leads (.inr hchild) hreach
  have hapart : ∀ i ∈ below, i ∉ after := by
    intro i hi hi'
    obtain ⟨c, hchild, hreach⟩ := (hkids.mem i).1 hi
    obtain ⟨d, hnext, hreach'⟩ := (hids.mem i).1 hi'
    cases h.eq_of_reaches (.inr hchild) (.inl hnext) hreach hreach'
    exact nomatch (h.first hchild).2.symm.trans (h.next hnext).2
  constructor
  · rfl
  · exact ⟨hn, rfl, by rw [hids.head, Option.or_none], hids.linked⟩
  · exact .cons hn hkids.head.symm hkids.linked hkids.forest hids.forest
  · refine List.nodup_append.2 ⟨hkids.nodup, List.nodup_cons.2 ⟨hself, hids.nodup⟩, ?_⟩
    intro i hi j hj heq
    subst heq
    rcases List.mem_cons.1 hj with rfl | hj
    · exact hself_below hi
    · exact hapart i hi hj
  · intro i
    rw [List.mem_append, List.mem_cons, hkids.mem, hids.mem, ← reaches_iff_head]
    simp

theorem exists_hanging (h : s.Interlinked) (hn : s.Has n) :
    ∃ ids ns, s.Hanging (s.prev? n) (some n) ids ns := by
  induction n using h.grounded.induction with
  | _ n ih =>
    have hkids : ∃ kids below, s.Hanging none (s.child? n) kids below := by
      cases hchild : s.child? n with
      | none => exact ⟨[], [], s.hanging_none none⟩
      | some c =>
        obtain ⟨hc, hprev⟩ := h.first hchild
        have := ih c (.inr hchild) hc
        rwa [hprev] at this
    have hids : ∃ ids after, s.Hanging (some n) (s.next? n) ids after := by
      cases hnext : s.next? n with
      | none => exact ⟨[], [], s.hanging_none (some n)⟩
      | some c =>
        obtain ⟨hc, hprev⟩ := h.next hnext
        have := ih c (.inl hnext) hc
        rwa [hprev] at this
    obtain ⟨kids, below, hkids⟩ := hkids
    obtain ⟨ids, after, hids⟩ := hids
    exact ⟨n :: ids, below ++ n :: after, h.hanging_cons hn hkids hids⟩

/-- The children of a node are strung together. -/
theorem linked_children (h : s.Interlinked) (p : NodeId) :
    s.child? p = (s.children p).head? ∧ s.Linked none (s.children p) none := by
  obtain ⟨ids, hhead, hlinked⟩ : ∃ ids : List NodeId, ids.head? = s.child? p ∧
      s.Linked none ids none := by
    cases hchild : s.child? p with
    | none => exact ⟨[], rfl, trivial⟩
    | some c =>
      obtain ⟨hc, hprev⟩ := h.first hchild
      obtain ⟨ids, ns, hids⟩ := h.exists_hanging hc
      have hlinked := hids.linked
      rw [hprev] at hlinked
      exact ⟨ids, hids.head, hlinked⟩
  rw [children_eq hlinked hhead.symm]
  exact ⟨hhead.symm, hlinked⟩

/-! ## Nodes that are not reached -/

/-- Siblings are reached only through the first of them or from among themselves. -/
theorem not_reaches_of_linked (h : s.Interlinked) {prev stop : Option NodeId} {ids : List NodeId}
    (hlinked : s.Linked prev ids stop) (hn : n ∉ ids)
    (hfirst : ∀ i j, ids.head? = some j → s.Leads i j → ¬ s.Reaches n i) :
    ∀ i ∈ ids, ¬ s.Reaches n i := by
  induction ids generalizing prev with
  | nil =>
    intro i hi
    cases hi
  | cons id ids ih =>
    obtain ⟨-, -, hnext, hrest⟩ := hlinked
    rw [List.mem_cons, not_or] at hn
    obtain ⟨hne, hn⟩ := hn
    have hid : ¬ s.Reaches n id := by
      intro hreach
      rw [reaches_iff_reflTransGen] at hreach
      rcases Relation.ReflTransGen.cases_tail hreach with heq | ⟨i, hni, hleads⟩
      · exact hne heq.symm
      · exact hfirst i id rfl hleads (reaches_iff_reflTransGen.2 hni)
    intro i hi
    rcases List.mem_cons.1 hi with rfl | hi
    · exact hid
    · refine ih hrest hn (fun k j hj hleads => ?_) i hi
      rw [hj] at hnext
      cases h.eq_of_leads hleads (.inl hnext)
      exact hid

/-- The children in front of a node are not reached from it if their container is not. -/
theorem not_reaches_front (h : s.Interlinked) {xs ys : List NodeId}
    (hp : s.children p = xs ++ ys) (hout : ¬ s.Reaches n p) (hn : n ∉ xs) :
    ∀ i ∈ xs, ¬ s.Reaches n i := by
  obtain ⟨hhead, hlinked⟩ := h.linked_children p
  rw [hp] at hhead hlinked
  refine h.not_reaches_of_linked (Linked.append_iff.1 hlinked).1 hn fun i j hj hleads => ?_
  rw [List.head?_append, hj] at hhead
  cases h.eq_of_leads hleads (.inr hhead)
  exact hout

end Interlinked

/-! ## The release -/

/-- The node is as it was, and live if it was. -/
structure Untouched (s t : Store) (i : NodeId) : Prop where
  cell : t.cells[i]? = s.cells[i]?
  live : t.isLive i = s.isLive i

/-- What it is to get from `s` to `t` by releasing the node `n`, the siblings after it and all that
hangs from them: the nodes `ns`, in this order. -/
structure ReleasedFrom (s t : Store) (n : NodeId) (ns : List NodeId) : Prop where
  /-- The loop over the siblings, with one for the children of each, comes to its end. -/
  run : Releases (some n) ns s t
  /-- Each node is released once. -/
  nodup : ns.Nodup
  /-- The nodes that the links lead to are released. -/
  mem : ∀ i, i ∈ ns ↔ s.Reaches n i
  /-- The arena has lost these nodes and no others. -/
  arena : t.arena = s.arena.map fun a => { a with live := a.live.filter (· ∉ ns) }
  size : t.cells.size = s.cells.size
  bare : ∀ i, s.Reaches n i → t.Bare i
  /-- A released node loses its links and nothing else. -/
  cleared : ∀ i, s.Reaches n i → t.cells[i]? = s.cells[i]?.map Cell.cleared
  untouched : ∀ i, ¬ s.Reaches n i → s.Untouched t i

theorem releasedFrom_clearAll {ns : List NodeId} (hrun : Releases (some n) ns s (s.clearAll ns))
    (hnodup : ns.Nodup) (hmem : ∀ i, i ∈ ns ↔ s.Reaches n i)
    (hlive : ∀ a, s.arena = some a → a.live.Nodup) : s.ReleasedFrom (s.clearAll ns) n ns := by
  have harena : (s.clearAll ns).arena =
      s.arena.map fun a => { a with live := a.live.filter (· ∉ ns) } := by
    rw [arena_clearAll]
    cases ha : s.arena with
    | none => rfl
    | some a =>
      rw [Option.map_some, Option.map_some, ← List.diff_eq_foldl, (hlive a ha).sdiff_eq_filter]
  refine ⟨hrun, hnodup, hmem, harena, s.size_clearAll ns, fun i hi => ?_, fun i hi => ?_,
    fun i hi => ⟨?_, ?_⟩⟩
  · exact bare_clearAll ((hmem i).2 hi)
  · rw [getElem?_clearAll, if_pos ((hmem i).2 hi)]
  · exact getElem?_clearAll_of_not_mem fun hi' => hi ((hmem i).1 hi')
  · have hi' : i ∉ ns := fun hi' => hi ((hmem i).1 hi')
    rw [isLive, harena, isLive]
    cases s.arena with
    | none => rfl
    | some a => simp [hi']

namespace ReleasedFrom

variable {ns : List NodeId}

theorem child?_of_not_reaches (r : s.ReleasedFrom t n ns) (hp : ¬ s.Reaches n p) :
    t.child? p = s.child? p :=
  child?_congr (r.untouched p hp).cell

theorem linked_of_not_reaches (r : s.ReleasedFrom t n ns) {prev stop : Option NodeId}
    {ids : List NodeId} (h : s.Linked prev ids stop) (hids : ∀ i ∈ ids, ¬ s.Reaches n i) :
    t.Linked prev ids stop :=
  h.of_cells fun i hi => (r.untouched i (hids i hi)).cell

/-- A container that is not reached and does not have the node as a child keeps its children. -/
theorem children_of_not_mem (r : s.ReleasedFrom t n ns) (h : s.Interlinked)
    (hp : ¬ s.Reaches n p) (hn : n ∉ s.children p) :
    t.children p = s.children p ∧ ∀ i ∈ s.children p, s.Untouched t i := by
  obtain ⟨hhead, hlinked⟩ := h.linked_children p
  have hout := h.not_reaches_front (List.append_nil _).symm hp hn
  refine ⟨?_, fun i hi => r.untouched i (hout i hi)⟩
  exact children_eq (r.linked_of_not_reaches hlinked hout)
    ((r.child?_of_not_reaches hp).trans hhead)

/-- If the node is a child of a container that is not reached, the children before it stay, and it is
the last one now, since it and those behind it are released. -/
theorem children_of_mem (r : s.ReleasedFrom t n ns) (h : s.Interlinked)
    (hp : ¬ s.Reaches n p) (hn : n ∈ s.children p) :
    ∃ xs ys, s.children p = xs ++ n :: ys ∧ t.children p = xs ++ [n] ∧
      (∀ i ∈ xs, s.Untouched t i) ∧ ∀ i ∈ ys, s.Reaches n i := by
  obtain ⟨hhead, hlinked⟩ := h.linked_children p
  have hchild := r.child?_of_not_reaches hp
  obtain ⟨xs, ys, hplace⟩ := List.append_of_mem hn
  have hfront : n ∉ xs := by
    intro hmem
    rw [hplace] at hlinked
    exact (List.nodup_append.1 hlinked.nodup).2.2 n hmem n List.mem_cons_self rfl
  have hxs := h.not_reaches_front hplace hp hfront
  rw [hplace] at hhead hlinked
  obtain ⟨hlinked_xs, -, -, hnext, hlinked_ys⟩ := Linked.append_iff.1 hlinked
  refine ⟨xs, ys, hplace, ?_, fun i hi => r.untouched i (hxs i hi), ?_⟩
  · obtain ⟨m, hm⟩ : ∃ m, t.cells.size = xs.length + (m + 1) := by
      have hle := hlinked.length_le
      rw [List.length_append, List.length_cons, ← r.size] at hle
      exact ⟨t.cells.size - xs.length - 1, by omega⟩
    have hchain := (r.linked_of_not_reaches hlinked_xs hxs).chain_append (m + 1)
    rw [List.head?_cons, Option.some_or] at hchain
    rw [children, siblings, hchild, hhead, hm, List.head?_append, List.head?_cons, hchain,
      chain, (r.bare n .refl).next]
    cases m <;> rfl
  · refine Reaches.of_linked hlinked_ys fun i hi => ?_
    rw [hi, Option.some_or] at hnext
    exact .next .refl hnext

end ReleasedFrom

/-- **Releasing a node releases exactly what its links lead to.** Wherever the node is, the release
comes to its end and has released the node, its later siblings and all that hangs from them, each of
them once. They have no links afterwards, and nothing else is touched. The target of a reference is
not among them unless links lead to it, and then it keeps its children, but for the node itself and
those behind it if they are among them. -/
theorem Interlinked.release_exact (h : s.Interlinked) (hn : s.Has n)
    (hlive : ∀ a, s.arena = some a → a.live.Nodup) :
    ∃ ns, s.ReleasedFrom (s.release n) n ns ∧
      ∀ r target, s.content? r = some (.reference target) → ¬ s.Reaches n target →
        s.Untouched (s.release n) target ∧
        (n ∉ s.children target → (s.release n).children target = s.children target ∧
          ∀ i ∈ s.children target, s.Untouched (s.release n) i) ∧
        (n ∈ s.children target → ∃ xs ys, s.children target = xs ++ n :: ys ∧
          (s.release n).children target = xs ++ [n] ∧
          (∀ i ∈ xs, s.Untouched (s.release n) i) ∧ ∀ i ∈ ys, s.Reaches n i) := by
  obtain ⟨ids, ns, hids⟩ := h.exists_hanging hn
  have hmem : ∀ i, i ∈ ns ↔ s.Reaches n i := by
    intro i
    simp [hids.mem]
  have hrun : Releases (some n) ns s (s.clearAll ns) := by
    have := hids.forest.releases hids.linked hids.nodup fun _ _ => rfl
    rwa [hids.head] at this
  have hend : s.release n = s.clearAll ns :=
    hrun.releaseTo_eq (length_le_size hids.nodup hids.forest.has)
  have hreleased := releasedFrom_clearAll hrun hids.nodup hmem hlive
  rw [hend]
  refine ⟨ns, hreleased, fun r target _ htarget => ⟨hreleased.untouched target htarget, ?_, ?_⟩⟩
  · exact hreleased.children_of_not_mem h htarget
  · exact hreleased.children_of_mem h htarget

/-- An array of four items, the third an array with an item and the fourth a reference to an array
that stands alone. -/
def fourItems : Store where
  cells := #[⟨.array (some 1), .none, none, none⟩, ⟨.scalar .null, .none, some 2, none⟩,
    ⟨.scalar .null, .none, some 3, some 1⟩, ⟨.array (some 4), .none, some 5, some 2⟩,
    ⟨.scalar .null, .none, none, none⟩, ⟨.reference 6, .none, none, some 3⟩,
    ⟨.array (some 7), .none, none, none⟩, ⟨.scalar .null, .none, none, none⟩]
  arena := some ⟨[7, 6, 5, 4, 3, 2, 1, 0], none, .unlimited⟩

/-- The second item is released: it, the array behind it with its item, and the reference behind
that, whose target keeps its item. -/
theorem release_exact_second_item :
    fourItems.Interlinked ∧ fourItems.Reaches 2 5 ∧ ¬ fourItems.Reaches 2 6 ∧
      (∃ ns, fourItems.ReleasedFrom (fourItems.release 2) 2 ns) ∧
      (fourItems.release 2).children 6 = [7] ∧ (fourItems.release 2).isLive 7 = some true := by
  have h : fourItems.Interlinked := interlinked_of_ascending (by decide)
  have hout : ¬ fourItems.Reaches 2 6 := by
    intro hreach
    have hmem : 6 ∈ [2, 3, 4, 5] := hreach.mem_of_closed (by decide) (by decide)
    revert hmem
    decide
  obtain ⟨ns, hreleased, htarget⟩ := h.release_exact (n := 2) (by decide) (by
    intro a ha
    cases ha
    decide)
  obtain ⟨-, hkept, -⟩ := htarget 5 6 rfl hout
  obtain ⟨hsame, hseven⟩ := hkept (by decide)
  have hchildren : fourItems.children 6 = [7] := by decide
  have hlive : fourItems.isLive 7 = some true := by decide
  exact ⟨h, .next (.next .refl rfl) rfl, hout, ⟨ns, hreleased⟩, hsame.trans hchildren,
    (hseven 7 (by decide)).live.trans hlive⟩

end LinkedJson.Store
