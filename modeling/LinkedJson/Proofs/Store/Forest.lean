import LinkedJson.Proofs.Store.Chains

/-!
# What hangs from siblings

`Forest s ids ns` says that the nodes `ns` are the siblings `ids` and all that hangs from them, each
node behind its children and before the siblings after it. Releasing siblings clears exactly these
nodes, in this order (`Forest.releases`), and `owned` finds the same ones (`Forest.owned_perm`).
-/

namespace LinkedJson.Store

/-! ## Clearing cells -/

section

variable (s : Store) (id i : NodeId) (ns : List NodeId)

theorem getElem?_clear :
    (s.clear id).cells[i]? = if id = i then s.cells[i]?.map Cell.cleared else s.cells[i]? := by
  simp only [clear, Array.getElem?_modify]

/-- All nodes of a list are cleared. -/
def clearAll : Store :=
  ns.foldl clear s

theorem clearAll_append (ms : List NodeId) : s.clearAll (ns ++ ms) = (s.clearAll ns).clearAll ms :=
  List.foldl_append

theorem cleared_cleared (c : Cell) : c.cleared.cleared = c.cleared := by
  obtain ⟨content, label, next, prev⟩ := c
  cases content <;> rfl

theorem getElem?_clearAll :
    (s.clearAll ns).cells[i]? = if i ∈ ns then s.cells[i]?.map Cell.cleared else s.cells[i]? := by
  induction ns generalizing s with
  | nil => rfl
  | cons n ns ih =>
    rw [clearAll, List.foldl_cons, ← clearAll, ih, getElem?_clear]
    by_cases hn : n = i
    · subst hn
      cases s.cells[n]? <;> simp [cleared_cleared]
    · have hn' : i ≠ n := fun e => hn e.symm
      simp [hn, hn']

theorem size_clearAll : (s.clearAll ns).cells.size = s.cells.size := by
  induction ns generalizing s with
  | nil => rfl
  | cons n ns ih =>
    rw [clearAll, List.foldl_cons, ← clearAll, ih]
    exact Array.size_modify

theorem arena_clearAll :
    (s.clearAll ns).arena = s.arena.map fun a => { a with live := ns.foldl List.erase a.live } := by
  induction ns generalizing s with
  | nil =>
    rw [clearAll, List.foldl_nil]
    cases s.arena <;> rfl
  | cons n ns ih =>
    rw [clearAll, List.foldl_cons, ← clearAll, ih, clear]
    cases s.arena <;> rfl

end

theorem getElem?_clearAll_of_not_mem {s : Store} {ns : List NodeId} {i : NodeId} (h : i ∉ ns) :
    (s.clearAll ns).cells[i]? = s.cells[i]? := by
  rw [getElem?_clearAll, if_neg h]

/-- A node without siblings and without children. -/
structure Bare (s : Store) (id : NodeId) : Prop where
  prev : s.prev? id = none
  next : s.next? id = none
  child : s.child? id = none

theorem Bare.of_cell {s t : Store} {i : NodeId} (h : s.Bare i) (hcell : t.cells[i]? = s.cells[i]?) :
    t.Bare i :=
  ⟨(prev?_congr hcell).trans h.prev, (next?_congr hcell).trans h.next,
    (child?_congr hcell).trans h.child⟩

theorem bare_of_not_has {s : Store} {i : NodeId} (h : ¬ s.Has i) : s.Bare i := by
  have hcell := getElem?_eq_none_of_not_has h
  constructor
  · rw [prev?, hcell]
    rfl
  · rw [next?, hcell]
    rfl
  · rw [child?, content?, hcell]
    rfl

theorem Bare.children_eq_nil {s : Store} {i : NodeId} (h : s.Bare i) : s.children i = [] :=
  children_eq trivial h.child

theorem bare_clearAll {s : Store} {ns : List NodeId} {i : NodeId} (h : i ∈ ns) :
    (s.clearAll ns).Bare i := by
  have hcell := s.getElem?_clearAll i ns
  rw [if_pos h] at hcell
  constructor
  · rw [prev?, hcell]
    cases s.cells[i]? <;> rfl
  · rw [next?, hcell]
    cases s.cells[i]? <;> rfl
  · rw [child?, content?, hcell]
    cases s.cells[i]? with
    | none => rfl
    | some c =>
      obtain ⟨content, label, next, prev⟩ := c
      cases content <;> rfl

/-! ## Releasing step by step -/

/-- The siblings from `head` on are released, and with each of them, before it, all that hangs from
it. On the way from `s` to `t` the nodes `ns` are released one after another. -/
inductive Releases : (head : Option NodeId) → (ns : List NodeId) → (s t : Store) → Prop
  | done (s : Store) : Releases none [] s s
  | step {id : NodeId} {below after : List NodeId} {s t u : Store} :
    Releases (s.child? id) below s t → Releases (s.next? id) after (t.clear id) u →
      Releases (some id) (below ++ id :: after) s u

/-- Such a release comes to its end within as many steps as there are nodes. -/
theorem Releases.releaseTo_eq {head : Option NodeId} {ns : List NodeId} {s t : Store} {n : Nat}
    (h : Releases head ns s t) (hn : ns.length ≤ n) : releaseTo n head s = t := by
  induction h generalizing n with
  | done s => cases n <;> rfl
  | step _ _ ihbelow ihafter =>
    rw [List.length_append, List.length_cons] at hn
    obtain ⟨n, rfl⟩ : ∃ m, n = m + 1 := Nat.exists_eq_add_one.2 (by omega)
    rw [releaseTo, ihbelow (by omega), ihafter (by omega)]

/-! ## Forests -/

/-- The nodes `ns` are the siblings `ids` and all that hangs from them, in the order in which they
are released. -/
inductive Forest (s : Store) : List NodeId → List NodeId → Prop
  | nil : Forest s [] []
  | cons {id : NodeId} {ids kids below after : List NodeId} :
    s.Has id → s.child? id = kids.head? → s.Linked none kids none → Forest s kids below →
      Forest s ids after → Forest s (id :: ids) (below ++ id :: after)

namespace Forest

variable {s t : Store} {ids js ns ms : List NodeId}

theorem subset (h : s.Forest ids ns) : ids ⊆ ns := by
  induction h with
  | nil => exact List.Subset.refl []
  | cons _ _ _ _ _ _ ih =>
    intro i hi
    rcases List.mem_cons.1 hi with rfl | hi
    · exact List.mem_append_right _ List.mem_cons_self
    · exact List.mem_append_right _ (List.mem_cons_of_mem _ (ih hi))

theorem has (h : s.Forest ids ns) : ∀ i ∈ ns, s.Has i := by
  induction h with
  | nil =>
    intro i hi
    cases hi
  | cons hhas _ _ _ _ ihbelow ihafter =>
    intro i hi
    rcases List.mem_append.1 hi with hi | hi
    · exact ihbelow i hi
    · rcases List.mem_cons.1 hi with rfl | hi
      · exact hhas
      · exact ihafter i hi

theorem append (h : s.Forest ids ns) (h' : s.Forest js ms) : s.Forest (ids ++ js) (ns ++ ms) := by
  induction h with
  | nil => exact h'
  | cons hhas hchild hlinked hbelow _ _ ih =>
    rw [List.append_assoc]
    exact .cons hhas hchild hlinked hbelow ih

/-- The links between the siblings at the top do not count. -/
theorem congr (h : s.Forest ids ns) (hnodup : ns.Nodup) (hhas : ∀ i ∈ ns, t.Has i)
    (hchild : ∀ i ∈ ns, t.child? i = s.child? i)
    (hprev : ∀ i ∈ ns, i ∉ ids → t.prev? i = s.prev? i)
    (hnext : ∀ i ∈ ns, i ∉ ids → t.next? i = s.next? i) : t.Forest ids ns := by
  induction h with
  | nil => exact .nil
  | @cons id ids kids below after _ hc hlinked hbelow hafter ihbelow ihafter =>
    obtain ⟨hnodup_below, hnodup_rest, hdisjoint⟩ := List.nodup_append.1 hnodup
    obtain ⟨hid, hnodup_after⟩ := List.nodup_cons.1 hnodup_rest
    have mem_id : id ∈ below ++ id :: after := List.mem_append_right _ List.mem_cons_self
    have mem_below : ∀ i ∈ below, i ∈ below ++ id :: after :=
      fun i hi => List.mem_append_left _ hi
    have mem_after : ∀ i ∈ after, i ∈ below ++ id :: after :=
      fun i hi => List.mem_append_right _ (List.mem_cons_of_mem _ hi)
    -- what hangs from the first sibling is none of the siblings
    have not_top : ∀ i ∈ below, i ∉ id :: ids := by
      intro i hi hmem
      rcases List.mem_cons.1 hmem with rfl | hmem
      · exact hdisjoint i hi i List.mem_cons_self rfl
      · exact hdisjoint i hi i (List.mem_cons_of_mem _ (hafter.subset hmem)) rfl
    have not_top_after : ∀ i ∈ after, i ∉ ids → i ∉ id :: ids := by
      intro i hi hnot hmem
      rcases List.mem_cons.1 hmem with rfl | hmem
      · exact hid hi
      · exact hnot hmem
    have prev_below : ∀ i ∈ below, t.prev? i = s.prev? i :=
      fun i hi => hprev i (mem_below i hi) (not_top i hi)
    have next_below : ∀ i ∈ below, t.next? i = s.next? i :=
      fun i hi => hnext i (mem_below i hi) (not_top i hi)
    refine .cons (hhas id mem_id) ((hchild id mem_id).trans hc) ?_ ?_ ?_
    · exact hlinked.congr (fun i hi => hhas i (mem_below i (hbelow.subset hi)))
        (fun i hi => prev_below i (hbelow.subset hi)) (fun i hi => next_below i (hbelow.subset hi))
    · exact ihbelow hnodup_below (fun i hi => hhas i (mem_below i hi))
        (fun i hi => hchild i (mem_below i hi)) (fun i hi _ => prev_below i hi)
        (fun i hi _ => next_below i hi)
    · exact ihafter hnodup_after (fun i hi => hhas i (mem_after i hi))
        (fun i hi => hchild i (mem_after i hi))
        (fun i hi hnot => hprev i (mem_after i hi) (not_top_after i hi hnot))
        (fun i hi hnot => hnext i (mem_after i hi) (not_top_after i hi hnot))

theorem of_cells (h : s.Forest ids ns) (hnodup : ns.Nodup)
    (hcells : ∀ i ∈ ns, t.cells[i]? = s.cells[i]?) : t.Forest ids ns :=
  h.congr hnodup (fun i hi => (has_congr (hcells i hi)).2 (h.has i hi))
    (fun i hi => child?_congr (hcells i hi)) (fun i hi _ => prev?_congr (hcells i hi))
    (fun i hi _ => next?_congr (hcells i hi))

/-! ## Children within a forest -/

theorem children_of_mem (h : s.Forest ids ns) (hnodup : ns.Nodup) {p : NodeId} (hp : p ∈ ns) :
    s.child? p = (s.children p).head? ∧ s.Linked none (s.children p) none ∧
      s.children p ⊆ ns ∧ ∀ i ∈ s.children p, i ∉ ids := by
  induction h with
  | nil => cases hp
  | @cons id ids kids below after _ hchild hlinked hbelow hafter ihbelow ihafter =>
    obtain ⟨hnodup_below, hnodup_rest, hdisjoint⟩ := List.nodup_append.1 hnodup
    obtain ⟨hid, hnodup_after⟩ := List.nodup_cons.1 hnodup_rest
    have hafter_top : ∀ i ∈ after, i ≠ id := by
      intro i hi heq
      subst heq
      exact hid hi
    have hbelow_top : ∀ i ∈ below, i ∉ id :: ids := by
      intro i hi hmem
      rcases List.mem_cons.1 hmem with rfl | hmem
      · exact hdisjoint i hi i List.mem_cons_self rfl
      · exact hdisjoint i hi i (List.mem_cons_of_mem _ (hafter.subset hmem)) rfl
    rcases List.mem_append.1 hp with hp | hp
    · obtain ⟨hhead, hlink, hsub, -⟩ := ihbelow hnodup_below hp
      refine ⟨hhead, hlink, fun i hi => List.mem_append_left _ (hsub hi), ?_⟩
      exact fun i hi => hbelow_top i (hsub hi)
    · rcases List.mem_cons.1 hp with rfl | hp
      · have hkids := children_eq hlinked hchild
        rw [hkids]
        refine ⟨hchild, hlinked, fun i hi => List.mem_append_left _ (hbelow.subset hi), ?_⟩
        exact fun i hi => hbelow_top i (hbelow.subset hi)
      · obtain ⟨hhead, hlink, hsub, htop⟩ := ihafter hnodup_after hp
        refine ⟨hhead, hlink, fun i hi => ?_, fun i hi hmem => ?_⟩
        · exact List.mem_append_right _ (List.mem_cons_of_mem _ (hsub hi))
        · rcases List.mem_cons.1 hmem with rfl | hmem
          · exact hafter_top i (hsub hi) rfl
          · exact htop i hi hmem

theorem single (h : s.Forest ids ns) (hnodup : ns.Nodup) {p q i : NodeId} (hp : p ∈ ns)
    (hq : q ∈ ns) (hip : i ∈ s.children p) (hiq : i ∈ s.children q) : p = q := by
  induction h with
  | nil => cases hp
  | @cons id ids kids below after _ hchild hlinked hbelow hafter ihbelow ihafter =>
    obtain ⟨hnodup_below, hnodup_rest, hdisjoint⟩ := List.nodup_append.1 hnodup
    obtain ⟨hid, hnodup_after⟩ := List.nodup_cons.1 hnodup_rest
    have hkids := children_eq hlinked hchild
    -- a child of the first sibling is below it, and no deeper node has it as a child
    have below_kids : ∀ {r}, r ∈ below → i ∈ s.children r → i ∈ kids → False := by
      intro r hr hir hmem
      exact (hbelow.children_of_mem hnodup_below hr).2.2.2 i hir hmem
    have apart : ∀ {r}, r ∈ after → i ∈ s.children r → i ∉ below := by
      intro r hr hir hmem
      have := (hafter.children_of_mem hnodup_after hr).2.2.1 hir
      exact hdisjoint i hmem i (List.mem_cons_of_mem _ this) rfl
    have inside : ∀ {r}, r ∈ below → i ∈ s.children r → i ∈ below := by
      intro r hr hir
      exact (hbelow.children_of_mem hnodup_below hr).2.2.1 hir
    rcases List.mem_append.1 hp with hp₁ | hp₁
    · rcases List.mem_append.1 hq with hq₁ | hq₁
      · exact ihbelow hnodup_below hp₁ hq₁
      · rcases List.mem_cons.1 hq₁ with rfl | hq₂
        · rw [hkids] at hiq
          exact (below_kids hp₁ hip hiq).elim
        · exact absurd (inside hp₁ hip) (apart hq₂ hiq)
    · rcases List.mem_cons.1 hp₁ with rfl | hp₂
      · rcases List.mem_append.1 hq with hq₁ | hq₁
        · rw [hkids] at hip
          exact (below_kids hq₁ hiq hip).elim
        · rcases List.mem_cons.1 hq₁ with rfl | hq₂
          · rfl
          · rw [hkids] at hip
            exact absurd (hbelow.subset hip) (apart hq₂ hiq)
      · rcases List.mem_append.1 hq with hq₁ | hq₁
        · exact absurd (inside hq₁ hiq) (apart hp₂ hip)
        · rcases List.mem_cons.1 hq₁ with rfl | hq₂
          · rw [hkids] at hiq
            exact absurd (hbelow.subset hiq) (apart hp₂ hip)
          · exact ihafter hnodup_after hp₂ hq₂

/-- Every node of a forest is at the top or a child of another. -/
theorem top_or_child (h : s.Forest ids ns) {i : NodeId} (hi : i ∈ ns) :
    i ∈ ids ∨ ∃ p ∈ ns, i ∈ s.children p := by
  induction h with
  | nil => cases hi
  | @cons id ids kids below after _ hchild hlinked hbelow hafter ihbelow ihafter =>
    rcases List.mem_append.1 hi with hi | hi
    · rcases ihbelow hi with hkid | ⟨p, hp, hip⟩
      · refine .inr ⟨id, List.mem_append_right _ List.mem_cons_self, ?_⟩
        rwa [children_eq hlinked hchild]
      · exact .inr ⟨p, List.mem_append_left _ hp, hip⟩
    · rcases List.mem_cons.1 hi with rfl | hi
      · exact .inl List.mem_cons_self
      · rcases ihafter hi with htop | ⟨p, hp, hip⟩
        · exact .inl (List.mem_cons_of_mem _ htop)
        · exact .inr ⟨p, List.mem_append_right _ (List.mem_cons_of_mem _ hp), hip⟩

theorem acc (h : s.Forest ids ns) {p : NodeId} (hp : p ∈ ns) :
    Acc (fun i p => i ∈ s.children p) p := by
  induction h generalizing p with
  | nil => cases hp
  | @cons id ids kids below after _ hchild hlinked hbelow _ ihbelow ihafter =>
    rcases List.mem_append.1 hp with hp | hp
    · exact ihbelow hp
    · rcases List.mem_cons.1 hp with rfl | hp
      · refine ⟨_, fun i hi => ihbelow ?_⟩
        rw [children_eq hlinked hchild] at hi
        exact hbelow.subset hi
      · exact ihafter hp

/-! ## Release -/

/-- Releasing siblings clears them and all that hangs from them, and nothing else. Links of nodes
that are still to be released are read from cells that nothing has cleared yet. -/
theorem releases (h : s.Forest ids ns) {prev : Option NodeId} (hlinked : s.Linked prev ids none)
    (hnodup : ns.Nodup) (hcells : ∀ i ∈ ns, t.cells[i]? = s.cells[i]?) :
    Releases ids.head? ns t (t.clearAll ns) := by
  induction h generalizing prev t with
  | nil => exact .done t
  | @cons id ids kids below after _ hchild hkids hbelow hafter ihbelow ihafter =>
    obtain ⟨hnodup_below, hnodup_rest, hdisjoint⟩ := List.nodup_append.1 hnodup
    obtain ⟨hid, hnodup_after⟩ := List.nodup_cons.1 hnodup_rest
    have hcell := hcells id (List.mem_append_right _ List.mem_cons_self)
    obtain ⟨-, -, hnext, hrest⟩ := hlinked
    rw [Option.or_none] at hnext
    rw [List.head?_cons, clearAll_append]
    refine .step (t := t.clearAll below) ?_ ?_
    · rw [child?_congr hcell, hchild]
      exact ihbelow hkids hnodup_below fun i hi => hcells i (List.mem_append_left _ hi)
    · rw [next?_congr hcell, hnext]
      refine ihafter (t := (t.clearAll below).clear id) hrest hnodup_after fun i hi => ?_
      have hne : id ≠ i := by
        intro heq
        subst heq
        exact hid hi
      have hnot : i ∉ below := fun hmem =>
        hdisjoint i hmem i (List.mem_cons_of_mem _ hi) rfl
      rw [getElem?_clear, if_neg hne, getElem?_clearAll_of_not_mem hnot]
      exact hcells i (List.mem_append_right _ (List.mem_cons_of_mem _ hi))

theorem releaseAll_eq (h : s.Forest ids ns) (hlinked : s.Linked none ids none)
    (hnodup : ns.Nodup) : s.releaseAll ids.head? = s.clearAll ns :=
  (h.releases hlinked hnodup fun _ _ => rfl).releaseTo_eq (length_le_size hnodup h.has)

/-! ## Owned nodes -/

theorem ownedTo_perm (h : s.Forest ids ns) {n : Nat} (hn : ns.length ≤ n) :
    (ids.flatMap (s.ownedTo n)).Perm ns := by
  induction h generalizing n with
  | nil => exact .nil
  | @cons id ids kids below after _ hchild hkids _ _ ihbelow ihafter =>
    rw [List.length_append, List.length_cons] at hn
    obtain ⟨n, rfl⟩ : ∃ m, n = m + 1 := Nat.exists_eq_add_one.2 (by omega)
    have hbelow := ihbelow (n := n) (by omega)
    have hafter := ihafter (n := n + 1) (by omega)
    rw [List.flatMap_cons, ownedTo, children_eq hkids hchild]
    exact ((hbelow.append hafter).cons id).trans List.perm_middle.symm

theorem owned_perm {id : NodeId} (h : s.Forest [id] ns) (hnodup : ns.Nodup) :
    (s.owned id).Perm ns := by
  have := h.ownedTo_perm (length_le_size hnodup h.has)
  rwa [List.flatMap_singleton] at this

end Forest

end LinkedJson.Store
