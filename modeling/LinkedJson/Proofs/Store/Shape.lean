import LinkedJson.Proofs.Store.Growth

/-!
# Well-linked stores

In a well-linked store every container's children are strung together in both directions, no node is
a child twice, a node that is no child has no siblings, and no node hangs from itself
(`WellLinked`).

Three ways to change a store keep it well-linked: the list of one container is changed
(`WellLinked.edit`), fresh trees are added (`WellLinked.grow`), and a node that stands alone is
released with all that hangs from it (`WellLinked.release`). Each comes with the lists of children
afterwards.
-/

namespace LinkedJson.Store

variable {s t : Store} {i j p q id : NodeId}

/-- The node is no child. -/
def Standalone (s : Store) (id : NodeId) : Prop :=
  ∀ p, id ∉ s.children p

/-- `i` is `p` or hangs from it. -/
inductive Below (s : Store) : NodeId → NodeId → Prop
  | refl (i : NodeId) : Below s i i
  | child {i p q : NodeId} : i ∈ s.children p → Below s p q → Below s i q

structure WellLinked (s : Store) : Prop where
  head : ∀ p, s.child? p = (s.children p).head?
  linked : ∀ p, s.Linked none (s.children p) none
  single : ∀ {p q i}, i ∈ s.children p → i ∈ s.children q → p = q
  alone : ∀ {i}, s.Standalone i → s.prev? i = none ∧ s.next? i = none
  grounded : WellFounded fun i p => i ∈ s.children p

/-! ## What hangs from a node -/

namespace Below

theorem trans {k : NodeId} (h : s.Below i j) (h' : s.Below j k) : s.Below i k := by
  induction h with
  | refl => exact h'
  | child hmem _ ih => exact .child hmem (ih h')

theorem eq_or_transGen (h : s.Below i p) :
    i = p ∨ Relation.TransGen (fun i p => i ∈ s.children p) i p := by
  induction h with
  | refl => exact .inl rfl
  | child hmem _ ih =>
    rcases ih with rfl | ih
    · exact .inr (.single hmem)
    · exact .inr (.trans (.single hmem) ih)

theorem iff_children : s.Below i p ↔ (∃ k ∈ s.children p, s.Below i k) ∨ i = p := by
  constructor
  · intro h
    induction h with
    | refl => exact .inr rfl
    | child hmem _ ih =>
      rcases ih with ⟨k, hk, hbelow⟩ | rfl
      · exact .inl ⟨k, hk, .child hmem hbelow⟩
      · exact .inl ⟨_, hmem, .refl _⟩
  · intro h
    rcases h with ⟨k, hk, hbelow⟩ | rfl
    · exact hbelow.trans (.child hk (.refl p))
    · exact .refl i

end Below

namespace WellLinked

/-- A container does not hang from its children. -/
theorem not_below_child (h : s.WellLinked) (hmem : i ∈ s.children p) : ¬ s.Below p i := by
  intro hbelow
  have hcycle : Relation.TransGen (fun i p => i ∈ s.children p) i i := by
    rcases hbelow.eq_or_transGen with rfl | hgen
    · exact .single hmem
    · exact .trans (.single hmem) hgen
  induction i using h.grounded.transGen.induction with
  | _ i ih => exact ih i hcycle hmem hbelow hcycle

/-- Two nodes that something hangs from hang from each other. -/
theorem below_total (h : s.WellLinked) {a b : NodeId} (ha : s.Below i a) (hb : s.Below i b) :
    s.Below a b ∨ s.Below b a := by
  induction ha with
  | refl => exact .inl hb
  | child hmem hpa ih =>
    cases hb with
    | refl => exact .inr (.child hmem hpa)
    | child hmem' hpb =>
      cases h.single hmem hmem'
      exact ih hpb

/-- Nothing hangs from two children of one container. -/
theorem below_siblings (h : s.WellLinked) {a b : NodeId} (ha : a ∈ s.children p)
    (hb : b ∈ s.children p) (hia : s.Below i a) (hib : s.Below i b) : a = b := by
  have key : ∀ {a b : NodeId}, a ∈ s.children p → b ∈ s.children p → s.Below a b → a = b := by
    intro a b ha hb hab
    cases hab with
    | refl => rfl
    | child hmem hpb =>
      cases h.single hmem ha
      exact absurd hpb (h.not_below_child hb)
  rcases h.below_total hia hib with hab | hba
  · exact key ha hb hab
  · exact (key hb ha hba).symm

theorem has_of_mem (h : s.WellLinked) (hmem : i ∈ s.children p) : s.Has i :=
  (h.linked p).has i hmem

/-- The children of a well-linked container are told by its first child. -/
theorem children_congr (h : s.WellLinked) (hchild : t.child? p = s.child? p)
    (hhas : ∀ i ∈ s.children p, t.Has i)
    (hprev : ∀ i ∈ s.children p, t.prev? i = s.prev? i)
    (hnext : ∀ i ∈ s.children p, t.next? i = s.next? i) : t.children p = s.children p :=
  children_eq ((h.linked p).congr hhas hprev hnext) (hchild.trans (h.head p))

/-! ## What is released with a node -/

/-- What hangs from siblings, if each of them has a forest of its own. -/
theorem exists_forest_of_children (h : s.WellLinked) {ids : List NodeId}
    (hids : ids ⊆ s.children p) (hnodup : ids.Nodup)
    (hforests : ∀ i ∈ ids, ∃ ns, s.Forest [i] ns ∧ ns.Nodup ∧ ∀ j, j ∈ ns ↔ s.Below j i) :
    ∃ ns, s.Forest ids ns ∧ ns.Nodup ∧ ∀ j, j ∈ ns ↔ ∃ i ∈ ids, s.Below j i := by
  induction ids with
  | nil => exact ⟨[], .nil, List.nodup_nil, by simp⟩
  | cons i ids ih =>
    obtain ⟨hi, hnodup_ids⟩ := List.nodup_cons.1 hnodup
    obtain ⟨ns, hns, hns_nodup, hns_mem⟩ := hforests i List.mem_cons_self
    obtain ⟨ms, hms, hms_nodup, hms_mem⟩ := ih (fun j hj => hids (List.mem_cons_of_mem _ hj))
      hnodup_ids fun j hj => hforests j (List.mem_cons_of_mem _ hj)
    refine ⟨ns ++ ms, hns.append hms, ?_, ?_⟩
    · refine List.nodup_append.2 ⟨hns_nodup, hms_nodup, ?_⟩
      intro j hj k hk heq
      subst heq
      obtain ⟨i', hi', hbelow'⟩ := (hms_mem j).1 hk
      have := h.below_siblings (hids List.mem_cons_self) (hids (List.mem_cons_of_mem _ hi'))
        ((hns_mem j).1 hj) hbelow'
      exact hi (this ▸ hi')
    · intro j
      simp [hns_mem, hms_mem]

theorem exists_forest (h : s.WellLinked) (p : NodeId) (hp : s.Has p) :
    ∃ ns, s.Forest [p] ns ∧ ns.Nodup ∧ ∀ i, i ∈ ns ↔ s.Below i p := by
  induction p using h.grounded.induction with
  | _ p ih =>
    obtain ⟨below, hbelow, hnodup, hmem⟩ := h.exists_forest_of_children (List.Subset.refl _)
      (h.linked p).nodup fun i hi => ih i hi (h.has_of_mem hi)
    have hp_below : p ∉ below := by
      intro hp
      obtain ⟨i, hi, hbelow⟩ := (hmem p).1 hp
      exact h.not_below_child hi hbelow
    refine ⟨below ++ [p], .cons hp (h.head p) (h.linked p) hbelow .nil, ?_, ?_⟩
    · refine List.nodup_append.2 ⟨hnodup, List.nodup_cons.2 ⟨List.not_mem_nil, List.nodup_nil⟩, ?_⟩
      intro i hi j hj heq
      subst heq
      rw [List.mem_singleton.1 hj] at hi
      exact hp_below hi
    · intro i
      rw [List.mem_append, List.mem_singleton, hmem, Below.iff_children]

/-! ## Changing the list of one container -/

end WellLinked

/-- `t` is `s`, but for the children of `p`, which are `new` in `t`. Whatever enters stood alone and
does not have `p` hanging from it, and whatever leaves stands alone. -/
structure Edited (s t : Store) (p : NodeId) (new : List NodeId) : Prop where
  has : ∀ {i}, s.Has i → t.Has i
  head : t.child? p = new.head?
  linked : t.Linked none new none
  child : ∀ {q}, q ≠ p → t.child? q = s.child? q
  prev : ∀ {i}, i ∉ s.children p → i ∉ new → t.prev? i = s.prev? i
  next : ∀ {i}, i ∉ s.children p → i ∉ new → t.next? i = s.next? i
  entered : ∀ i ∈ new, i ∉ s.children p → s.Standalone i ∧ ¬ s.Below p i
  left : ∀ i ∈ s.children p, i ∉ new → t.prev? i = none ∧ t.next? i = none

namespace Edited

variable {new : List NodeId}

theorem children_self (e : s.Edited t p new) : t.children p = new :=
  children_eq e.linked e.head

/-- A child of another container does not come near the change. -/
theorem not_mem_of_other (e : s.Edited t p new) (h : s.WellLinked) (hq : q ≠ p)
    (hi : i ∈ s.children q) : i ∉ s.children p ∧ i ∉ new := by
  have hold : i ∉ s.children p := fun hmem => hq (h.single hi hmem)
  refine ⟨hold, fun hmem => ?_⟩
  exact (e.entered i hmem hold).1 q hi

theorem children_other (e : s.Edited t p new) (h : s.WellLinked) (hq : q ≠ p) :
    t.children q = s.children q := by
  refine h.children_congr (e.child hq) (fun i hi => e.has (h.has_of_mem hi)) ?_ ?_
  · intro i hi
    obtain ⟨hold, hnew⟩ := e.not_mem_of_other h hq hi
    exact e.prev hold hnew
  · intro i hi
    obtain ⟨hold, hnew⟩ := e.not_mem_of_other h hq hi
    exact e.next hold hnew

/-- What hangs from a node that `p` does not hang from stays there. -/
theorem below_iff (e : s.Edited t p new) (h : s.WellLinked) {r : NodeId} (hr : ¬ s.Below p r) :
    t.Below i r ↔ s.Below i r := by
  constructor
  · intro hbelow
    induction hbelow with
    | refl i => exact .refl i
    | child hmem _ ih =>
      have hq := ih hr
      have hne : _ ≠ p := fun heq => hr (heq ▸ hq)
      rw [e.children_other h hne] at hmem
      exact .child hmem hq
  · intro hbelow
    induction hbelow with
    | refl i => exact .refl i
    | child hmem hq ih =>
      have hne : _ ≠ p := fun heq => hr (heq ▸ hq)
      exact .child (by rwa [e.children_other h hne]) (ih hr)

theorem grounded (e : s.Edited t p new) (h : s.WellLinked) :
    WellFounded fun i q => i ∈ t.children q := by
  -- nothing has changed below a node that `p` does not hang from
  have hside : ∀ q, ¬ s.Below p q → Acc (fun i q => i ∈ t.children q) q := by
    intro q
    induction q using h.grounded.induction with
    | _ q ih =>
      intro hq
      have hne : q ≠ p := by
        intro heq
        subst heq
        exact hq (.refl q)
      refine ⟨q, fun i hi => ?_⟩
      rw [e.children_other h hne] at hi
      exact ih i hi fun hbelow => hq (hbelow.trans (.child hi (.refl q)))
  have hself : Acc (fun i q => i ∈ t.children q) p := by
    refine ⟨p, fun i hi => hside i ?_⟩
    rw [e.children_self] at hi
    by_cases hold : i ∈ s.children p
    · exact h.not_below_child hold
    · exact (e.entered i hi hold).2
  refine ⟨fun q => ?_⟩
  induction q using h.grounded.induction with
  | _ q ih =>
    by_cases hq : q = p
    · rw [hq]
      exact hself
    · refine ⟨q, fun i hi => ih i ?_⟩
      rwa [e.children_other h hq] at hi

/-- A change of one list keeps a store well-linked. -/
theorem wellLinked (e : s.Edited t p new) (h : s.WellLinked) : t.WellLinked where
  head q := by
    by_cases hq : q = p
    · rw [hq, e.children_self, e.head]
    · rw [e.children_other h hq, e.child hq, h.head q]
  linked q := by
    by_cases hq : q = p
    · rw [hq, e.children_self]
      exact e.linked
    · rw [e.children_other h hq]
      refine (h.linked q).congr (fun i hi => e.has (h.has_of_mem hi)) ?_ ?_
      · intro i hi
        obtain ⟨hold, hnew⟩ := e.not_mem_of_other h hq hi
        exact e.prev hold hnew
      · intro i hi
        obtain ⟨hold, hnew⟩ := e.not_mem_of_other h hq hi
        exact e.next hold hnew
  single := by
    intro q r i hq hr
    by_cases hqp : q = p
    · by_cases hrp : r = p
      · rw [hqp, hrp]
      · rw [hqp, e.children_self] at hq
        rw [e.children_other h hrp] at hr
        exact absurd hq (e.not_mem_of_other h hrp hr).2
    · rw [e.children_other h hqp] at hq
      by_cases hrp : r = p
      · rw [hrp, e.children_self] at hr
        exact absurd hr (e.not_mem_of_other h hqp hq).2
      · rw [e.children_other h hrp] at hr
        exact h.single hq hr
  alone := by
    intro i hi
    have hnew : i ∉ new := by
      have := hi p
      rwa [e.children_self] at this
    by_cases hold : i ∈ s.children p
    · exact e.left i hold hnew
    · have hs : s.Standalone i := by
        intro q hq
        by_cases hqp : q = p
        · exact hold (hqp ▸ hq)
        · exact hi q (by rwa [e.children_other h hqp])
      rw [e.prev hold hnew, e.next hold hnew]
      exact h.alone hs
  grounded := e.grounded h

end Edited

/-! ## Fresh trees -/

section

variable {ids ns : List NodeId}

namespace Grown

theorem cases (g : Grown s t ids ns) (p : NodeId) : s.Has p ∨ p ∈ ns ∨ t.Bare p := by
  by_cases ht : t.Has p
  · by_cases hs : s.Has p
    · exact .inl hs
    · by_cases hmem : p ∈ ns
      · exact .inr (.inl hmem)
      · exact .inr (.inr (g.bare p ht hs hmem))
  · exact .inr (.inr (bare_of_not_has ht))

/-- The containers from before keep their children. -/
theorem children_of_has (g : Grown s t ids ns) (h : s.WellLinked) (hp : s.Has p) :
    t.children p = s.children p := by
  have hcell : ∀ i ∈ s.children p, t.cells[i]? = s.cells[i]? :=
    fun i hi => g.keeps.cell (h.has_of_mem hi)
  exact h.children_congr (child?_congr (g.keeps.cell hp)) (fun i hi => g.keeps.has (h.has_of_mem hi))
    (fun i hi => prev?_congr (hcell i hi)) fun i hi => next?_congr (hcell i hi)

theorem has_of_child (h : i ∈ s.children p) : s.Has p := by
  by_cases hp : s.Has p
  · exact hp
  · rw [(bare_of_not_has hp).children_eq_nil] at h
    cases h

/-- A store stays well-linked when a fresh tree is added to it, or nothing but bare cells. -/
theorem wellLinked (g : Grown s t ids ns) (h : s.WellLinked) (hids : ids.length ≤ 1) :
    t.WellLinked where
  head p := by
    rcases g.cases p with hp | hp | hp
    · rw [g.children_of_has h hp, child?_congr (g.keeps.cell hp), h.head p]
    · exact (g.forest.children_of_mem g.nodup hp).1
    · rw [hp.children_eq_nil, hp.child]
      rfl
  linked p := by
    rcases g.cases p with hp | hp | hp
    · rw [g.children_of_has h hp]
      exact (h.linked p).of_cells fun i hi => g.keeps.cell (h.has_of_mem hi)
    · exact (g.forest.children_of_mem g.nodup hp).2.1
    · rw [hp.children_eq_nil]
      trivial
  single := by
    intro p q i hp hq
    -- children of old containers are old, and children of fresh ones are fresh
    have old : ∀ {r}, s.Has r → i ∈ t.children r → s.Has i := by
      intro r hr hi
      rw [g.children_of_has h hr] at hi
      exact h.has_of_mem hi
    have fresh : ∀ {r}, r ∈ ns → i ∈ t.children r → ¬ s.Has i := by
      intro r hr hi
      exact g.fresh i ((g.forest.children_of_mem g.nodup hr).2.2.1 hi)
    rcases g.cases p with hp' | hp' | hp'
    · rcases g.cases q with hq' | hq' | hq'
      · rw [g.children_of_has h hp'] at hp
        rw [g.children_of_has h hq'] at hq
        exact h.single hp hq
      · exact absurd (old hp' hp) (fresh hq' hq)
      · rw [hq'.children_eq_nil] at hq
        cases hq
    · rcases g.cases q with hq' | hq' | hq'
      · exact absurd (old hq' hq) (fresh hp' hp)
      · exact g.forest.single g.nodup hp' hq' hp hq
      · rw [hq'.children_eq_nil] at hq
        cases hq
    · rw [hp'.children_eq_nil] at hp
      cases hp
  alone := by
    intro i hi
    rcases g.cases i with hi' | hi' | hi'
    · have hs : s.Standalone i := by
        intro p hp
        exact hi p (by rwa [g.children_of_has h (has_of_child hp)])
      rw [prev?_congr (g.keeps.cell hi'), next?_congr (g.keeps.cell hi')]
      exact h.alone hs
    · rcases g.forest.top_or_child hi' with htop | ⟨p, -, hp⟩
      · obtain ⟨id, rfl⟩ : ∃ id, ids = [id] :=
          List.length_eq_one_iff.1 (Nat.le_antisymm hids (List.length_pos_of_mem htop))
        obtain ⟨-, hprev, hnext⟩ := Linked.singleton_iff.1 g.linked
        rw [List.mem_singleton.1 htop]
        exact ⟨hprev, hnext⟩
      · exact absurd hp (hi p)
    · exact ⟨hi'.prev, hi'.next⟩
  grounded := by
    have hbare : ∀ p, t.Bare p → Acc (fun i p => i ∈ t.children p) p := by
      intro p hp
      refine ⟨p, fun i hi => ?_⟩
      rw [hp.children_eq_nil] at hi
      cases hi
    refine ⟨fun p => ?_⟩
    induction p using h.grounded.induction with
    | _ p ih =>
      rcases g.cases p with hp | hp | hp
      · refine ⟨p, fun i hi => ih i ?_⟩
        rwa [g.children_of_has h hp] at hi
      · exact g.forest.acc hp
      · exact hbare p hp

end Grown

end

/-! ## Releasing -/

/-- What is left when a node that stands alone is released with all that hangs from it. -/
structure Released (s t : Store) (id : NodeId) : Prop where
  wellLinked : t.WellLinked
  kept : ∀ {p}, ¬ s.Below p id → t.children p = s.children p
  bare : ∀ {p}, s.Below p id → t.Bare p
  has : ∀ {p}, t.Has p ↔ s.Has p

/-- Releasing a node that stands alone clears what hangs from it. -/
theorem WellLinked.release_eq_clearAll (h : s.WellLinked) (hhas : s.Has id)
    (hid : s.Standalone id) :
    ∃ ns, s.release id = s.clearAll ns ∧ ∀ i, i ∈ ns ↔ s.Below i id := by
  obtain ⟨ns, hforest, hnodup, hmem⟩ := h.exists_forest id hhas
  obtain ⟨hprev, hnext⟩ := h.alone hid
  exact ⟨ns, hforest.releaseAll_eq (Linked.singleton_iff.2 ⟨hhas, hprev, hnext⟩) hnodup, hmem⟩

theorem WellLinked.release (h : s.WellLinked) (hhas : s.Has id) (hid : s.Standalone id) :
    Released s (s.release id) id := by
  obtain ⟨ns, hrelease, hmem⟩ := h.release_eq_clearAll hhas hid
  rw [hrelease]
  have hhas_iff : ∀ {p}, (s.clearAll ns).Has p ↔ s.Has p := by
    intro p
    rw [Has, size_clearAll]
    rfl
  -- no child of a container that stays is released
  have hkids : ∀ {p i}, p ∉ ns → i ∈ s.children p → i ∉ ns := by
    intro p i hp hi hmem_i
    cases (hmem i).1 hmem_i with
    | refl => exact hid p hi
    | child hi' hbelow =>
      cases h.single hi hi'
      exact hp ((hmem p).2 hbelow)
  have hcell : ∀ {p}, p ∉ ns → (s.clearAll ns).cells[p]? = s.cells[p]? :=
    fun hp => getElem?_clearAll_of_not_mem hp
  have hlinked : ∀ {p}, p ∉ ns → (s.clearAll ns).Linked none (s.children p) none :=
    fun hp => (h.linked _).of_cells fun i hi => hcell (hkids hp hi)
  have hchildren : ∀ {p}, p ∉ ns → (s.clearAll ns).children p = s.children p := by
    intro p hp
    exact children_eq (hlinked hp) ((child?_congr (hcell hp)).trans (h.head p))
  have hnil : ∀ {p}, p ∈ ns → (s.clearAll ns).children p = [] :=
    fun hp => (bare_clearAll hp).children_eq_nil
  have hsub : ∀ {i p}, i ∈ (s.clearAll ns).children p → p ∉ ns ∧ i ∈ s.children p := by
    intro i p hi
    by_cases hp : p ∈ ns
    · rw [hnil hp] at hi
      cases hi
    · exact ⟨hp, by rwa [hchildren hp] at hi⟩
  refine ⟨⟨?_, ?_, ?_, ?_, ?_⟩, ?_, ?_, hhas_iff⟩
  · intro p
    by_cases hp : p ∈ ns
    · rw [hnil hp, (bare_clearAll hp).child]
      rfl
    · rw [hchildren hp, child?_congr (hcell hp), h.head p]
  · intro p
    by_cases hp : p ∈ ns
    · rw [hnil hp]
      trivial
    · rw [hchildren hp]
      exact hlinked hp
  · intro p q i hp hq
    exact h.single (hsub hp).2 (hsub hq).2
  · intro i hi
    by_cases hi' : i ∈ ns
    · exact ⟨(bare_clearAll hi').prev, (bare_clearAll hi').next⟩
    · rw [prev?_congr (hcell hi'), next?_congr (hcell hi')]
      refine h.alone fun p hp => ?_
      by_cases hp' : p ∈ ns
      · exact hi' ((hmem i).2 (.child hp ((hmem p).1 hp')))
      · exact hi p (by rwa [hchildren hp'])
  · exact Subrelation.wf (fun hi => (hsub hi).2) h.grounded
  · intro p hp
    exact hchildren fun hmem_p => hp ((hmem p).1 hmem_p)
  · intro p hp
    exact bare_clearAll ((hmem p).2 hp)

end LinkedJson.Store
