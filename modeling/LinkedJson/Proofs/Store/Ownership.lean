import LinkedJson.Proofs.Store.Runs
import Mathlib.Data.List.Nodup

/-!
# Who owns a live node

A node that stands alone owns what its first child and the siblings after that lead to, and so on
down (`Reaches`). The targets of references are not among it.

`Accounted a s owners live` says that the arena of `s` is `a` with the nodes `live`, that these are
whole trees, and that `owners` are the roots of them. Then every live node is owned by exactly one
of the owners (`Accounted.mem_live_iff`, `Accounted.owner_unique`). The ways to change a store keep
the accounts: a tree is built, the list of one container is changed, a tree is released.
-/

namespace LinkedJson.Store

variable {s t : Store} {i j p r id : NodeId}

/-! ## Reaching -/

/-- First children and next siblings lead from `r` to the node. -/
inductive Reaches (s : Store) (r : NodeId) : NodeId → Prop
  | refl : Reaches s r r
  | child {i j : NodeId} : Reaches s r i → s.child? i = some j → Reaches s r j
  | next {i j : NodeId} : Reaches s r i → s.next? i = some j → Reaches s r j

/-- Whatever leads to the first of a list of siblings leads to all of them. -/
theorem Reaches.of_linked {prev : Option NodeId} {ids : List NodeId}
    (h : s.Linked prev ids none) (hfirst : ∀ i, ids.head? = some i → s.Reaches r i) :
    ∀ i ∈ ids, s.Reaches r i := by
  induction ids generalizing prev with
  | nil =>
    intro i hi
    cases hi
  | cons id ids ih =>
    obtain ⟨-, -, hnext, hrest⟩ := h
    rw [Option.or_none] at hnext
    have hid := hfirst id rfl
    intro i hi
    rcases List.mem_cons.1 hi with rfl | hi
    · exact hid
    · exact ih hrest (fun j hj => .next hid (hnext.trans hj)) i hi

namespace WellLinked

theorem next_mem (h : s.WellLinked) (hmem : i ∈ s.children p) (hnext : s.next? i = some j) :
    j ∈ s.children p := by
  obtain ⟨xs, ys, hp, -⟩ := h.exists_place hmem
  obtain ⟨-, hys, -⟩ := h.links_of_child hp
  rw [hp]
  exact List.mem_append_right _ (List.mem_of_mem_head? (hys.symm.trans hnext))

/-- From a node that stands alone the links lead to what hangs from it. -/
theorem reaches_iff (h : s.WellLinked) (hr : s.Standalone r) : s.Reaches r i ↔ s.Below i r := by
  constructor
  · intro hreach
    induction hreach with
    | refl => exact .refl r
    | @child i j _ hchild ih =>
      rw [h.head] at hchild
      exact .child (List.mem_of_mem_head? hchild) ih
    | @next i j _ hnext ih =>
      cases ih with
      | refl =>
        rw [(h.alone hr).2] at hnext
        cases hnext
      | child hmem hbelow => exact .child (h.next_mem hmem hnext) hbelow
  · intro hbelow
    induction hbelow with
    | refl => exact .refl
    | @child i p _ hmem _ ih =>
      refine Reaches.of_linked (h.linked p) (fun j hj => .child (ih hr) ?_) i hmem
      rw [h.head, hj]

/-! ## Roots -/

theorem has_of_below (h : s.WellLinked) (hbelow : s.Below i p) (hp : s.Has p) : s.Has i := by
  cases hbelow with
  | refl => exact hp
  | child hmem _ => exact h.has_of_mem hmem

/-- A node that stands alone and hangs from a node is that node. -/
theorem eq_of_below (hi : s.Standalone i) (hbelow : s.Below i p) : i = p := by
  cases hbelow with
  | refl => rfl
  | child hmem _ => exact absurd hmem (hi _)

theorem root_unique (h : s.WellLinked) {r' : NodeId} (hr : s.Standalone r) (hr' : s.Standalone r')
    (hi : s.Below i r) (hi' : s.Below i r') : r = r' := by
  rcases h.below_total hi hi' with hbelow | hbelow
  · exact eq_of_below hr hbelow
  · exact (eq_of_below hr' hbelow).symm

/-- One step up from `p`, more nodes are known to hang from where we are. -/
theorem cons_parent (h : s.WellLinked) {q : NodeId} (hmem : p ∈ s.children q) {ns : List NodeId}
    (hnodup : ns.Nodup) (hbelow : ∀ i ∈ ns, s.Below i p) :
    (q :: ns).Nodup ∧ ∀ i ∈ q :: ns, s.Below i q := by
  refine ⟨List.nodup_cons.2 ⟨fun hq => h.not_below_child hmem (hbelow q hq), hnodup⟩, ?_⟩
  intro i hi
  rcases List.mem_cons.1 hi with rfl | hi
  · exact .refl i
  · exact (hbelow i hi).trans (.child hmem (.refl q))

/-- The induction is on how many nodes there are besides those that are known to hang from `p`: the
container that `p` is a child of hangs from none of them. -/
theorem exists_root_of_length (h : s.WellLinked) {n : Nat} (hp : s.Has p) {ns : List NodeId}
    (hnodup : ns.Nodup) (hbelow : ∀ i ∈ ns, s.Below i p) (hn : s.cells.size ≤ ns.length + n) :
    ∃ r, s.Standalone r ∧ s.Below p r := by
  induction n generalizing p ns with
  | zero =>
    refine ⟨p, fun q hmem => ?_, .refl p⟩
    obtain ⟨hnodup', hbelow'⟩ := h.cons_parent hmem hnodup hbelow
    have hhas : s.Has q := Grown.has_of_child hmem
    have hle := length_le_size hnodup' fun i hi => h.has_of_below (hbelow' i hi) hhas
    rw [List.length_cons] at hle
    omega
  | succ n ih =>
    by_cases halone : s.Standalone p
    · exact ⟨p, halone, .refl p⟩
    · obtain ⟨q, hmem⟩ : ∃ q, p ∈ s.children q := by simpa [Standalone] using halone
      obtain ⟨hnodup', hbelow'⟩ := h.cons_parent hmem hnodup hbelow
      have hlength : s.cells.size ≤ (q :: ns).length + n := by
        rw [List.length_cons]
        omega
      obtain ⟨r, hr, hq⟩ := ih (Grown.has_of_child hmem) hnodup' hbelow' hlength
      exact ⟨r, hr, .child hmem hq⟩

theorem exists_root (h : s.WellLinked) (hp : s.Has p) : ∃ r, s.Standalone r ∧ s.Below p r :=
  h.exists_root_of_length hp List.nodup_nil (fun _ hi => nomatch hi) (Nat.le_add_left ..)

end WellLinked

/-! ## Live nodes after a release -/

/-- The arena loses what hangs from a node that is released. -/
theorem WellLinked.live_release (h : s.WellLinked) {a : Arena} {live : List NodeId}
    (hhas : s.Has id) (halone : s.Standalone id) (harena : s.arena = some { a with live })
    (hnodup : live.Nodup) :
    ∃ live', (s.release id).arena = some { a with live := live' } ∧ live'.Sublist live ∧
      ∀ i, i ∈ live' ↔ i ∈ live ∧ ¬ s.Below i id := by
  obtain ⟨ns, heq, hmem⟩ := h.release_eq_clearAll hhas halone
  refine ⟨live.diff ns, ?_, List.diff_sublist .., fun i => ?_⟩
  · rw [heq, arena_clearAll, harena, List.diff_eq_foldl]
    rfl
  · rw [hnodup.mem_sdiff_iff, hmem]

/-! ## Who stands alone after a change -/

theorem SameLinks.standalone_iff (l : SameLinks s t) : t.Standalone i ↔ s.Standalone i :=
  forall_congr' fun p => by rw [l.children]

theorem Edited.standalone_iff {new : List NodeId} (e : s.Edited t p new) (h : s.WellLinked) :
    t.Standalone i ↔ (s.Standalone i ∨ i ∈ s.children p) ∧ i ∉ new := by
  constructor
  · intro hi
    refine ⟨?_, fun hnew => hi p (by rwa [e.children_self])⟩
    by_cases hold : i ∈ s.children p
    · exact .inr hold
    · refine .inl fun q hq => ?_
      by_cases hqp : q = p
      · exact hold (hqp ▸ hq)
      · exact hi q (by rwa [e.children_other h hqp])
  · intro hi q hq
    obtain ⟨hi, hnew⟩ := hi
    by_cases hqp : q = p
    · rw [hqp, e.children_self] at hq
      exact hnew hq
    · rw [e.children_other h hqp] at hq
      rcases hi with hi | hi
      · exact hi q hq
      · exact hqp (h.single hq hi)

namespace Grown

variable {ids ns : List NodeId}

theorem children_fresh (g : Grown s t ids ns) (hp : p ∈ ns) (hi : i ∈ t.children p) : i ∈ ns :=
  (g.forest.children_of_mem g.nodup hp).2.2.1 hi

theorem standalone_iff_of_has (g : Grown s t ids ns) (h : s.WellLinked) (hi : s.Has i) :
    t.Standalone i ↔ s.Standalone i := by
  constructor
  · intro halone p hp
    exact halone p (by rwa [g.children_of_has h (has_of_child hp)])
  · intro halone p hp
    rcases g.cases p with hp' | hp' | hp'
    · rw [g.children_of_has h hp'] at hp
      exact halone p hp
    · exact g.fresh i (g.children_fresh hp' hp) hi
    · rw [hp'.children_eq_nil] at hp
      cases hp

theorem standalone_of_mem (g : Grown s t ids ns) (h : s.WellLinked) (hi : i ∈ ids) :
    t.Standalone i := by
  intro p hp
  rcases g.cases p with hp' | hp' | hp'
  · rw [g.children_of_has h hp'] at hp
    exact g.fresh i (g.forest.subset hi) (h.has_of_mem hp)
  · exact (g.forest.children_of_mem g.nodup hp').2.2.2 i hp hi
  · rw [hp'.children_eq_nil] at hp
    cases hp

end Grown

/-! ## Accounts -/

/-- The arena of the store is `a` with the nodes `live`. These are whole trees, whose roots are
`owners`, and no more than the arena may hold. -/
structure Accounted (a : Arena) (s : Store) (owners live : List NodeId) : Prop where
  wellLinked : s.WellLinked
  arena : s.arena = some { a with live }
  nodup : live.Nodup
  has : ∀ {i}, i ∈ live → s.Has i
  whole : ∀ {i p}, i ∈ s.children p → (i ∈ live ↔ p ∈ live)
  owners_nodup : owners.Nodup
  mem_owners : ∀ {i}, i ∈ owners ↔ i ∈ live ∧ s.Standalone i
  bound : ∀ limit ∈ a.maxNodes, (live.length : Int) ≤ max limit 0

namespace Accounted

variable {a : Arena} {owners live : List NodeId}

theorem empty (a : Arena) : Accounted a (.empty (some { a with live := [] })) [] [] where
  wellLinked := wellLinked_empty _
  arena := rfl
  nodup := List.nodup_nil
  has hi := nomatch hi
  whole := by
    intro i p hi
    have hhas := Grown.has_of_child hi
    exact absurd hhas (Nat.not_lt_zero p)
  owners_nodup := List.nodup_nil
  mem_owners := ⟨fun hi => (nomatch hi), fun hi => (nomatch hi.1)⟩
  bound limit _ := Int.le_max_right limit 0

theorem mem_live_of_below (h : Accounted a s owners live) (hbelow : s.Below i p) :
    i ∈ live ↔ p ∈ live := by
  induction hbelow with
  | refl => exact Iff.rfl
  | child hmem _ ih => exact (h.whole hmem).trans ih

/-- The live nodes are those that the owners reach. -/
theorem mem_live_iff (h : Accounted a s owners live) :
    i ∈ live ↔ ∃ r ∈ owners, s.Reaches r i := by
  constructor
  · intro hi
    obtain ⟨r, hr, hbelow⟩ := h.wellLinked.exists_root (h.has hi)
    refine ⟨r, h.mem_owners.2 ⟨(h.mem_live_of_below hbelow).1 hi, hr⟩, ?_⟩
    exact (h.wellLinked.reaches_iff hr).2 hbelow
  · intro hi
    obtain ⟨r, hr, hreach⟩ := hi
    obtain ⟨hlive, halone⟩ := h.mem_owners.1 hr
    exact (h.mem_live_of_below ((h.wellLinked.reaches_iff halone).1 hreach)).2 hlive

/-- No node is reached by two owners. -/
theorem owner_unique (h : Accounted a s owners live) {r' : NodeId} (hr : r ∈ owners)
    (hr' : r' ∈ owners) (hi : s.Reaches r i) (hi' : s.Reaches r' i) : r = r' := by
  have halone := (h.mem_owners.1 hr).2
  have halone' := (h.mem_owners.1 hr').2
  exact h.wellLinked.root_unique halone halone' ((h.wellLinked.reaches_iff halone).1 hi)
    ((h.wellLinked.reaches_iff halone').1 hi')

/-! ### Steps -/

/-- Values and labels make no difference. -/
theorem of_sameLinks (h : Accounted a s owners live) (l : SameLinks s t)
    (harena : t.arena = s.arena) : Accounted a t owners live where
  wellLinked := l.wellLinked h.wellLinked
  arena := harena.trans h.arena
  nodup := h.nodup
  has hi := l.has.2 (h.has hi)
  whole hi := h.whole (l.children _ ▸ hi)
  owners_nodup := h.owners_nodup
  mem_owners := h.mem_owners.trans (and_congr_right fun _ => l.standalone_iff.symm)
  bound := h.bound

/-- One list is changed: what enters it is live already, and it no longer stands alone; what leaves
it stands alone from then on. -/
theorem edited (h : Accounted a s owners live) {new owners' : List NodeId} (e : s.Edited t p new)
    (harena : t.arena = s.arena) (hp : p ∈ live) (hnew : ∀ i ∈ new, i ∉ s.children p → i ∈ live)
    (hnodup : owners'.Nodup)
    (howners : ∀ i, i ∈ owners' ↔ (i ∈ owners ∨ i ∈ s.children p) ∧ i ∉ new) :
    Accounted a t owners' live where
  wellLinked := e.wellLinked h.wellLinked
  arena := harena.trans h.arena
  nodup := h.nodup
  has hi := e.has (h.has hi)
  whole := by
    intro i q hi
    by_cases hq : q = p
    · subst hq
      rw [e.children_self] at hi
      by_cases hold : i ∈ s.children q
      · exact h.whole hold
      · exact iff_of_true (hnew i hi hold) hp
    · rw [e.children_other h.wellLinked hq] at hi
      exact h.whole hi
  owners_nodup := hnodup
  mem_owners := by
    intro i
    rw [howners, e.standalone_iff h.wellLinked, h.mem_owners]
    constructor
    · intro hi
      obtain ⟨⟨hlive, halone⟩ | hmem, hnot⟩ := hi
      · exact ⟨hlive, .inl halone, hnot⟩
      · exact ⟨(h.whole hmem).2 hp, .inr hmem, hnot⟩
    · intro hi
      obtain ⟨hlive, halone | hmem, hnot⟩ := hi
      · exact ⟨.inl ⟨hlive, halone⟩, hnot⟩
      · exact ⟨.inr hmem, hnot⟩
  bound := h.bound

/-- A tree is added, or nothing but bare cells. -/
theorem grown (h : Accounted a s owners live) {ids ns : List NodeId} (g : Grown s t ids ns)
    (hids : ids.length ≤ 1) (hwithin : ids ≠ [] → t.Within) :
    ∃ live', Accounted a t (ids ++ owners) live' ∧ ∀ i, s.Has i → (i ∈ live' ↔ i ∈ live) := by
  obtain ⟨taken, hperm, harena⟩ := g.taken
  rw [h.arena, Option.map_some] at harena
  have hfresh : ∀ i ∈ taken, ¬ s.Has i := fun i hi => g.fresh i (hperm.subset hi)
  have hold : ∀ i, s.Has i → (i ∈ taken ++ live ↔ i ∈ live) := by
    intro i hi
    rw [List.mem_append, or_iff_right fun hmem => hfresh i hmem hi]
  have hnew : ∀ i, i ∈ ns → i ∈ taken ++ live :=
    fun i hi => List.mem_append_left _ (hperm.symm.subset hi)
  have hnodup_ids : ids.Nodup := g.linked.nodup
  refine ⟨taken ++ live, ⟨g.wellLinked h.wellLinked hids, harena, ?_, ?_, ?_, ?_, ?_, ?_⟩, hold⟩
  · refine List.nodup_append.2 ⟨hperm.nodup_iff.2 g.nodup, h.nodup, ?_⟩
    intro i hi j hj heq
    subst heq
    exact hfresh i hi (h.has hj)
  · intro i hi
    rcases List.mem_append.1 hi with hi | hi
    · exact g.forest.has i (hperm.subset hi)
    · exact g.keeps.has (h.has hi)
  · intro i p hi
    rcases g.cases p with hp | hp | hp
    · rw [g.children_of_has h.wellLinked hp] at hi
      rw [hold i (h.wellLinked.has_of_mem hi), hold p hp]
      exact h.whole hi
    · exact iff_of_true (hnew i (g.children_fresh hp hi)) (hnew p hp)
    · rw [hp.children_eq_nil] at hi
      cases hi
  · refine List.nodup_append.2 ⟨hnodup_ids, h.owners_nodup, ?_⟩
    intro i hi j hj heq
    subst heq
    exact g.fresh i (g.forest.subset hi) (h.has (h.mem_owners.1 hj).1)
  · intro i
    by_cases hi : s.Has i
    · have hnot : i ∉ ids := fun hmem => g.fresh i (g.forest.subset hmem) hi
      rw [List.mem_append, or_iff_right hnot, h.mem_owners, hold i hi,
        g.standalone_iff_of_has h.wellLinked hi]
    · have hlive : i ∉ live := fun hmem => hi (h.has hmem)
      have howner : i ∉ owners := fun hmem => hlive (h.mem_owners.1 hmem).1
      rw [List.mem_append, List.mem_append, or_iff_left howner, or_iff_left hlive, hperm.mem_iff]
      constructor
      · intro hmem
        exact ⟨g.forest.subset hmem, g.standalone_of_mem h.wellLinked hmem⟩
      · intro hmem
        rcases g.forest.top_or_child hmem.1 with htop | ⟨p, -, hp⟩
        · exact htop
        · exact absurd hp (hmem.2 p)
  · intro limit hlimit
    by_cases hnil : ids = []
    · subst hnil
      have hns : ns = [] := by
        cases g.forest
        rfl
      subst hns
      rw [List.perm_nil.1 hperm, List.nil_append]
      exact h.bound limit hlimit
    · exact Int.le_trans (hwithin hnil _ harena limit hlimit) (Int.le_max_left ..)

/-- A tree is released. -/
theorem released (h : Accounted a s owners live) (hid : id ∈ owners) :
    ∃ live', Accounted a (s.release id) (owners.erase id) live' ∧
      ∀ i, i ∈ live' ↔ i ∈ live ∧ ¬ s.Below i id := by
  obtain ⟨hlive, halone⟩ := h.mem_owners.1 hid
  have hhas := h.has hlive
  have hreleased := h.wellLinked.release hhas halone
  obtain ⟨live', harena, hsub, hlive'⟩ := h.wellLinked.live_release hhas halone h.arena h.nodup
  -- no child of a container that stays is released
  have hside : ∀ {i q}, i ∈ s.children q → (s.Below i id ↔ s.Below q id) := by
    intro i q hi
    refine ⟨fun hbelow => ?_, .child hi⟩
    cases hbelow with
    | refl => exact absurd hi (halone q)
    | child hi' hbelow => exact h.wellLinked.single hi' hi ▸ hbelow
  refine ⟨live', ⟨hreleased.wellLinked, harena, h.nodup.sublist hsub, ?_, ?_, ?_, ?_, ?_⟩, hlive'⟩
  · intro i hi
    exact hreleased.has.2 (h.has ((hlive' i).1 hi).1)
  · intro i q hi
    by_cases hq : s.Below q id
    · rw [(hreleased.bare hq).children_eq_nil] at hi
      cases hi
    · rw [hreleased.kept hq] at hi
      rw [hlive', hlive', h.whole hi, hside hi]
  · exact h.owners_nodup.erase id
  · intro i
    rw [h.owners_nodup.mem_erase_iff, hlive', h.mem_owners]
    constructor
    · intro hi
      obtain ⟨hne, hi, hroot⟩ := hi
      refine ⟨⟨hi, fun hbelow => hne (WellLinked.eq_of_below hroot hbelow)⟩, fun q hq => ?_⟩
      by_cases hq' : s.Below q id
      · rw [(hreleased.bare hq').children_eq_nil] at hq
        cases hq
      · rw [hreleased.kept hq'] at hq
        exact hroot q hq
    · intro hi
      obtain ⟨⟨hi, hnot⟩, hroot⟩ := hi
      refine ⟨fun heq => hnot (heq ▸ .refl i), hi, fun q hq => ?_⟩
      exact hroot q (by rwa [hreleased.kept fun hbelow => hnot ((hside hq).2 hbelow)])
  · intro limit hlimit
    have hle := hsub.length_le
    have := h.bound limit hlimit
    omega

end Accounted

end LinkedJson.Store
