import LinkedJson.Proofs.Store.Building
import LinkedJson.Store.Editing

/-!
# Runs of tree operations

A `Call` is one operation on the trees of a store, and `Call.Allowed` what it asks of its arguments:
items handed in stand alone and are not above their destination, and children are children.
`Reachable` are the stores that runs of allowed calls lead to.

Every reachable store is well-linked, and every allowed call acts on the lists of children as a pure
list operation does (`Reachable.refines`).
-/

namespace LinkedJson.Store

variable {s t u : Store} {p q child item : NodeId}

/-! ## List operations -/

/-- What an operation does to the list of one container. -/
inductive Edit where
  | append (item : NodeId)
  | insertAt (index : Nat) (item : NodeId)
  | insertBefore (child item : NodeId)
  | erase (child : NodeId)
  | replace (child item : NodeId)

namespace Edit

def apply : Edit → List NodeId → List NodeId
  | append item, ids => ids ++ [item]
  | insertAt index item, ids => ids.insertIdx (min index ids.length) item
  | insertBefore child item, ids => ids.insertIdx (ids.idxOf child) item
  | erase child, ids => ids.erase child
  | replace child item, ids => ids.set (ids.idxOf child) item

/-- The node that leaves the list. -/
def removed? : Edit → Option NodeId
  | append _ | insertAt .. | insertBefore .. => none
  | erase child | replace child _ => some child

theorem insertIdx_append (xs ys : List NodeId) (item : NodeId) :
    (xs ++ ys).insertIdx xs.length item = xs ++ item :: ys := by
  induction xs with
  | nil => simp
  | cons x xs ih => simp [ih]

theorem idxOf_middle {xs ys : List NodeId} (h : child ∉ xs) :
    (xs ++ [child] ++ ys).idxOf child = xs.length := by
  rw [List.append_assoc, List.idxOf_append, if_neg h]
  simp

theorem apply_insertBefore {xs ys : List NodeId} (h : child ∉ xs) :
    (insertBefore child item).apply (xs ++ [child] ++ ys) = xs ++ [item, child] ++ ys := by
  rw [apply, idxOf_middle h, List.append_assoc, insertIdx_append]
  simp

theorem apply_erase {xs ys : List NodeId} (h : child ∉ xs) :
    (erase child).apply (xs ++ [child] ++ ys) = xs ++ [] ++ ys := by
  rw [apply, List.append_assoc, List.erase_append_right _ h]
  simp

theorem apply_replace {xs ys : List NodeId} (h : child ∉ xs) :
    (replace child item).apply (xs ++ [child] ++ ys) = xs ++ [item] ++ ys := by
  rw [apply, idxOf_middle h]
  simp

theorem apply_insertAt_of_getElem? {index : Nat} {ids : List NodeId} (hnodup : ids.Nodup)
    (h : ids[index]? = some child) :
    (insertAt index item).apply ids = (insertBefore child item).apply ids := by
  obtain ⟨hlt, rfl⟩ := List.getElem?_eq_some_iff.1 h
  rw [apply, apply, hnodup.idxOf_getElem, Nat.min_eq_left (Nat.le_of_lt hlt)]

theorem apply_insertAt_of_le {index : Nat} {ids : List NodeId} (h : ids.length ≤ index) :
    (insertAt index item).apply ids = ids ++ [item] := by
  rw [apply, Nat.min_eq_right h]
  simp

end Edit

theorem edited_append (h : s.WellLinked) (hitem : s.Insertable p item) :
    s.Edited (s.append p item) p ((Edit.append item).apply (s.children p)) := by
  have := (spliced_append h hitem).edited h (by simp)
  rwa [List.append_nil] at this

/-- A child has a place in the list. -/
theorem WellLinked.exists_place (h : s.WellLinked) (hchild : child ∈ s.children p) :
    ∃ xs ys, s.children p = xs ++ [child] ++ ys ∧ child ∉ xs := by
  obtain ⟨xs, ys, hp⟩ := List.append_of_mem hchild
  have hnodup := (h.linked p).nodup
  rw [hp] at hnodup
  refine ⟨xs, ys, by simpa using hp, fun hmem => ?_⟩
  exact (List.nodup_append.1 hnodup).2.2 child hmem child List.mem_cons_self rfl

theorem edited_insertBefore (h : s.WellLinked) (hitem : s.Insertable p item)
    (hchild : child ∈ s.children p) :
    s.Edited (s.insertBefore p child item) p
      ((Edit.insertBefore child item).apply (s.children p)) := by
  obtain ⟨xs, ys, hp, hnot⟩ := h.exists_place hchild
  rw [hp, Edit.apply_insertBefore hnot]
  exact (spliced_insertBefore h hitem hp).edited h hp

theorem edited_unlink (h : s.WellLinked) (hchild : child ∈ s.children p) :
    s.Edited (s.unlink p child) p ((Edit.erase child).apply (s.children p)) := by
  obtain ⟨xs, ys, hp, hnot⟩ := h.exists_place hchild
  rw [hp, Edit.apply_erase hnot]
  exact (spliced_unlink h hp).edited h hp

theorem edited_replace (h : s.WellLinked) (hitem : s.Insertable p item)
    (hchild : child ∈ s.children p) :
    s.Edited (s.replace p child item) p ((Edit.replace child item).apply (s.children p)) := by
  obtain ⟨xs, ys, hp, hnot⟩ := h.exists_place hchild
  rw [hp, Edit.apply_replace hnot]
  exact (spliced_replace h hitem hp).edited h hp

/-- A node that an operation takes out of a list is not in the list afterwards. -/
theorem WellLinked.not_mem_of_removed (h : s.WellLinked) {e : Edit} {i : NodeId}
    (hmem : i ∈ s.children p) (hremoved : e.removed? = some i)
    (hitem : ∀ item, e = .replace i item → item ≠ i) : i ∉ e.apply (s.children p) := by
  obtain ⟨xs, ys, hp, hnot⟩ := h.exists_place hmem
  have hnodup := (h.linked p).nodup
  rw [hp] at hnodup ⊢
  have hys : i ∉ ys := by
    intro hi
    exact (List.nodup_append.1 hnodup).2.2 i (by simp) i hi rfl
  cases e with
  | append item => cases hremoved
  | insertAt index item => cases hremoved
  | insertBefore child item => cases hremoved
  | erase child =>
    cases hremoved
    rw [Edit.apply_erase hnot]
    simp [hnot, hys]
  | replace child item =>
    cases hremoved
    rw [Edit.apply_replace hnot]
    simp [hnot, hys, (hitem item rfl).symm]

/-! ## Changes besides the links -/

/-- The stores differ at most in values, labels and arenas. -/
structure SameLinks (s t : Store) : Prop where
  size : t.cells.size = s.cells.size
  container : ∀ i, s.IsContainer i → t.IsContainer i
  child : ∀ i, t.child? i = s.child? i
  prev : ∀ i, t.prev? i = s.prev? i
  next : ∀ i, t.next? i = s.next? i

theorem sameLinks_setLabel (s : Store) (id : NodeId) (l : Label) :
    SameLinks s (s.setLabel id l) where
  size := s.size_modify ..
  container _ h := h.congr (content?_setLabel ..)
  child _ := child?_setLabel ..
  prev _ := prev?_setLabel ..
  next _ := next?_setLabel ..

theorem sameLinks_withArena (s : Store) (arena : Option Arena) :
    SameLinks s { s with arena } :=
  ⟨rfl, fun _ h => h, fun _ => rfl, fun _ => rfl, fun _ => rfl⟩

namespace SameLinks

variable {new : List NodeId}

theorem has (l : SameLinks s t) {i : NodeId} : t.Has i ↔ s.Has i := by
  rw [Has, Has, l.size]

theorem children (l : SameLinks s t) (p : NodeId) : t.children p = s.children p := by
  have hchain : ∀ n head, t.chain n head = s.chain n head := by
    intro n
    induction n with
    | zero =>
      intro head
      rfl
    | succ n ih =>
      intro head
      cases head with
      | none => rfl
      | some id => rw [chain, chain, l.next, ih]
  unfold Store.children siblings
  rw [l.size, l.child, hchain]

theorem below (l : SameLinks s t) {i : NodeId} (h : t.Below i p) : s.Below i p := by
  induction h with
  | refl i => exact .refl i
  | child hmem _ ih =>
    rw [l.children] at hmem
    exact .child hmem ih

theorem standalone (l : SameLinks s t) {i : NodeId} (h : s.Standalone i) : t.Standalone i := by
  intro p hp
  rw [l.children] at hp
  exact h p hp

theorem insertable (l : SameLinks s t) (h : s.Insertable p item) : t.Insertable p item :=
  ⟨l.container p h.container, l.has.2 h.has, l.standalone h.standalone,
    fun hbelow => h.notAbove (l.below hbelow)⟩

theorem wellLinked (l : SameLinks s t) (h : s.WellLinked) : t.WellLinked where
  head p := by
    rw [l.child, l.children]
    exact h.head p
  linked p := by
    rw [l.children]
    exact (h.linked p).congr (fun i hi => l.has.2 (h.has_of_mem hi)) (fun i _ => l.prev i)
      fun i _ => l.next i
  single := by
    intro p q i hp hq
    rw [l.children] at hp hq
    exact h.single hp hq
  alone := by
    intro i hi
    rw [l.prev, l.next]
    exact h.alone fun p hp => hi p (by rwa [l.children])
  grounded := by
    refine Subrelation.wf (fun {i p} hi => ?_) h.grounded
    rwa [l.children] at hi

end SameLinks

/-! ## Effects of operations -/

/-- From `s` to `t` the list of one container is changed as `edit?` tells, if it tells anything.
Every other container keeps its list, unless it goes away with the node `released?`. -/
structure Effect (s t : Store) (edit? : Option (NodeId × Edit)) (released? : Option NodeId) :
    Prop where
  wellLinked : t.WellLinked
  edited : ∀ p e, edit? = some (p, e) → t.children p = e.apply (s.children p)
  removed : ∀ p e i, edit? = some (p, e) → e.removed? = some i →
    t.prev? i = none ∧ t.next? i = none
  kept : ∀ q, s.Has q → (∀ p e, edit? = some (p, e) → q ≠ p) →
    (∀ r, released? = some r → ¬ s.Below q r) → t.children q = s.children q

variable {e : Edit} {change : Option (NodeId × Edit)} {gone : Option NodeId}

theorem Edited.effect (h : s.WellLinked) (hedited : s.Edited t p (e.apply (s.children p)))
    (hremoved : ∀ i, e.removed? = some i → i ∈ s.children p)
    (hitem : ∀ i item, e = .replace i item → item ≠ i) : Effect s t (some (p, e)) none where
  wellLinked := hedited.wellLinked h
  edited := by
    intro _ _ h
    cases h
    exact hedited.children_self
  removed := by
    intro _ _ i h hi
    cases h
    exact hedited.left i (hremoved i hi) (h.not_mem_of_removed (hremoved i hi) hi (hitem i))
  kept q _ hq _ := hedited.children_other h (hq p e rfl)

/-- A change of values and labels before an operation makes no difference. -/
theorem Effect.of_sameLinks (l : SameLinks s t) (h : Effect t u change gone) :
    Effect s u change gone where
  wellLinked := h.wellLinked
  edited p e he := by rw [h.edited p e he, l.children]
  removed := h.removed
  kept q hq hne hreleased := by
    rw [h.kept q (l.has.2 hq) hne fun r hr hbelow => hreleased r hr (l.below hbelow), l.children]

theorem Effect.sameLinks (h : s.WellLinked) (l : SameLinks s t) : Effect s t none none where
  wellLinked := l.wellLinked h
  edited _ _ he := nomatch he
  removed _ _ _ he := nomatch he
  kept q _ _ _ := l.children q

theorem Effect.refl (h : s.WellLinked) : Effect s s none none :=
  .sameLinks h (sameLinks_withArena s s.arena)

theorem Effect.grown {ids ns : List NodeId} (h : s.WellLinked) (g : Grown s t ids ns)
    (hids : ids.length ≤ 1) : Effect s t none none where
  wellLinked := g.wellLinked h hids
  edited _ _ he := nomatch he
  removed _ _ _ he := nomatch he
  kept _ hq _ _ := g.children_of_has h hq

/-- The same change of a list, told by a place. -/
theorem Effect.insertAt {index : Nat} (he : Effect s t (some (p, e)) gone)
    (happly : (Edit.insertAt index item).apply (s.children p) = e.apply (s.children p)) :
    Effect s t (some (p, .insertAt index item)) gone where
  wellLinked := he.wellLinked
  edited := by
    intro _ _ h
    cases h
    rw [happly, he.edited p e rfl]
  removed := by
    intro _ _ _ h hi
    cases h
    cases hi
  kept q hq hne hreleased := by
    refine he.kept q hq ?_ hreleased
    intro _ _ h
    cases h
    exact hne _ _ rfl

theorem Effect.released (h : s.WellLinked) (hhas : s.Has child) (hchild : s.Standalone child) :
    Effect s (s.release child) none (some child) where
  wellLinked := (h.release hhas hchild).wellLinked
  edited _ _ he := nomatch he
  removed _ _ _ he := nomatch he
  kept _ _ _ hreleased := (h.release hhas hchild).kept (hreleased child rfl)

/-- A child that has left its list is released. -/
theorem Edited.effect_release (h : s.WellLinked)
    (hedited : s.Edited t p (e.apply (s.children p))) (hremoved : e.removed? = some child)
    (hchild : child ∈ s.children p) (hitem : ∀ item, e = .replace child item → item ≠ child) :
    Effect s (t.release child) (some (p, e)) (some child) := by
  have hnot : child ∉ t.children p := by
    rw [hedited.children_self]
    exact h.not_mem_of_removed hchild hremoved hitem
  have hstandalone : t.Standalone child := by
    intro q hq
    by_cases hqp : q = p
    · exact hnot (hqp ▸ hq)
    · rw [hedited.children_other h hqp] at hq
      exact hqp (h.single hq hchild)
  have hbelow : ∀ {q}, t.Below q child → s.Below q child :=
    fun hq => (hedited.below_iff h (h.not_below_child hchild)).1 hq
  obtain ⟨hwell, hkept, hbare, -⟩ :=
    (hedited.wellLinked h).release (hedited.has (h.has_of_mem hchild)) hstandalone
  refine ⟨hwell, ?_, ?_, ?_⟩
  · intro _ _ h
    cases h
    rw [hkept fun hp => h.not_below_child hchild (hbelow hp), hedited.children_self]
  · intro _ _ i h hi
    cases h
    rw [hremoved] at hi
    cases hi
    exact ⟨(hbare (.refl child)).prev, (hbare (.refl child)).next⟩
  · intro q _ hne hreleased
    rw [hkept fun hp => hreleased child rfl (hbelow hp), hedited.children_other h (hne p e rfl)]

/-! ## Calls -/

/-- An operation on the trees of a store. -/
inductive Call where
  /-- Nodes come from another arena from now on. -/
  | useArena (arena : Option Arena)
  | create (content : Content)
  | createReference (target : NodeId)
  | createArrayOf (values : List Scalar)
  | read (options : ReadOptions) (bytes : List UInt8)
  | duplicate (deep : Bool) (id : NodeId)
  | append (parent item : NodeId)
  | insertBefore (parent child item : NodeId)
  | unlink (parent child : NodeId)
  | replace (parent child item : NodeId)
  | pushItem (array item : NodeId)
  | pushMember (object : NodeId) (name : WideString) (item : NodeId)
  | pushLentMember (object : NodeId) (name : WideString) (item : NodeId)
  | pushItemReference (array target : NodeId)
  | pushMemberReference (object : NodeId) (name : WideString) (target : NodeId)
  | insertItem (array : NodeId) (index : Int) (item : NodeId)
  | replaceItem (array : NodeId) (index : Int) (item : NodeId)
  | replaceMember (object : NodeId) (name : WideString) (item : NodeId)
  | detachItem (parent : NodeId) (index : Int)
  | detachMember (object : NodeId) (name : WideString)
  | eraseItem (parent : NodeId) (index : Int)
  | eraseMember (object : NodeId) (name : WideString)
  | release (id : NodeId)

namespace Call

/-- The store afterwards. An operation that fails leaves the store alone, but for bare cells where
it had taken several nodes. -/
def run (s : Store) : Call → Store
  | useArena arena => { s with arena }
  | create content => ((s.create? content).map Prod.snd).getD s
  | createReference target => ((s.createReference? target).map Prod.snd).getD s
  | createArrayOf values => (s.createArrayOf values).2
  | read options bytes => (s.read options bytes).2
  | duplicate deep id => (s.duplicate deep id).2
  | append parent item => s.append parent item
  | insertBefore parent child item => s.insertBefore parent child item
  | unlink parent child => s.unlink parent child
  | replace parent child item => s.replace parent child item
  | pushItem array item => s.pushItem array item
  | pushMember object name item => s.pushMember object name item
  | pushLentMember object name item => s.pushLentMember object name item
  | pushItemReference array target => (s.pushItemReference? array target).getD s
  | pushMemberReference object name target => (s.pushMemberReference? object name target).getD s
  | insertItem array index item => (s.insertItem? array index item).getD s
  | replaceItem array index item => (s.replaceItem? array index item).getD s
  | replaceMember object name item => (s.replaceMember? object name item).getD s
  | detachItem parent index => ((s.detachItem? parent index).map Prod.snd).getD s
  | detachMember object name => ((s.detachMember? object name).map Prod.snd).getD s
  | eraseItem parent index => s.eraseItem parent index
  | eraseMember object name => s.eraseMember object name
  | release id => s.release id

/-- What an operation asks of its arguments. -/
def Allowed (s : Store) : Call → Prop
  | useArena _ | createReference _ | createArrayOf _ | read .. | duplicate .. | detachItem ..
  | detachMember .. | eraseItem .. | eraseMember .. => True
  | create content => content.child? = none
  | append parent item | pushItem parent item | pushMember parent _ item
  | pushLentMember parent _ item | insertItem parent _ item | replaceItem parent _ item
  | replaceMember parent _ item => s.Insertable parent item
  | insertBefore parent child item | replace parent child item =>
    s.Insertable parent item ∧ child ∈ s.children parent
  | unlink parent child => child ∈ s.children parent
  | pushItemReference parent _ | pushMemberReference parent _ _ => s.IsContainer parent
  | release id => s.Has id ∧ s.Standalone id

/-- The list that an operation changes, and how. -/
def edit? (s : Store) : Call → Option (NodeId × Edit)
  | append parent item | pushItem parent item | pushMember parent _ item
  | pushLentMember parent _ item => some (parent, .append item)
  | insertBefore parent child item => some (parent, .insertBefore child item)
  | unlink parent child => some (parent, .erase child)
  | replace parent child item => some (parent, .replace child item)
  | pushItemReference parent _ | pushMemberReference parent _ _ =>
    if s.isFull then none else some (parent, .append s.cells.size)
  | insertItem parent index item =>
    if index < 0 then none else some (parent, .insertAt index.toNat item)
  | replaceItem parent index item =>
    (s.childAt? parent index).map fun child => (parent, .replace child item)
  | replaceMember parent name item =>
    (s.childNamed? parent name).map fun child => (parent, .replace child item)
  | detachItem parent index | eraseItem parent index =>
    (s.childAt? parent index).map fun child => (parent, .erase child)
  | detachMember parent name | eraseMember parent name =>
    (s.childNamed? parent name).map fun child => (parent, .erase child)
  | useArena _ | create _ | createReference _ | createArrayOf _ | read .. | duplicate ..
  | release _ => none

/-- The node that an operation releases with all that hangs from it. -/
def released? (s : Store) : Call → Option NodeId
  | replaceItem parent index _ | eraseItem parent index => s.childAt? parent index
  | replaceMember parent name _ | eraseMember parent name => s.childNamed? parent name
  | release id => some id
  | _ => none

end Call

/-! ## Every call does what it should -/

theorem mem_of_childAt? {index : Int} (h : s.childAt? p index = some child) :
    child ∈ s.children p := by
  unfold childAt? at h
  split at h
  · cases h
  · exact List.mem_of_getElem? h

theorem mem_of_childNamed? {name : WideString} (h : s.childNamed? p name = some child) :
    child ∈ s.children p :=
  List.mem_of_find?_eq_some h

theorem Insertable.ne_of_mem (hitem : s.Insertable p item) (hchild : child ∈ s.children p) :
    item ≠ child := by
  intro heq
  subst heq
  exact hitem.standalone p hchild

theorem effect_append (h : s.WellLinked) (hitem : s.Insertable p item) :
    Effect s (s.append p item) (some (p, .append item)) none :=
  (edited_append h hitem).effect h (fun _ hi => nomatch hi) fun _ _ he => nomatch he

theorem effect_insertBefore (h : s.WellLinked) (hitem : s.Insertable p item)
    (hchild : child ∈ s.children p) :
    Effect s (s.insertBefore p child item) (some (p, .insertBefore child item)) none :=
  (edited_insertBefore h hitem hchild).effect h (fun _ hi => nomatch hi) fun _ _ he => nomatch he

theorem effect_unlink (h : s.WellLinked) (hchild : child ∈ s.children p) :
    Effect s (s.unlink p child) (some (p, .erase child)) none := by
  refine (edited_unlink h hchild).effect h ?_ fun _ _ he => nomatch he
  intro i h
  cases h
  exact hchild

theorem effect_replace (h : s.WellLinked) (hitem : s.Insertable p item)
    (hchild : child ∈ s.children p) :
    Effect s (s.replace p child item) (some (p, .replace child item)) none := by
  refine (edited_replace h hitem hchild).effect h ?_ ?_
  · intro i h
    cases h
    exact hchild
  · intro i _ h
    cases h
    exact hitem.ne_of_mem hchild

theorem effect_replaceChild (h : s.WellLinked) (hitem : s.Insertable p item)
    (hchild : child ∈ s.children p) :
    Effect s (s.replaceChild p child item) (some (p, .replace child item)) (some child) := by
  apply (edited_replace h hitem hchild).effect_release h rfl hchild
  intro _ h
  cases h
  exact hitem.ne_of_mem hchild

/-- A new label for the item makes no difference to the lists. -/
theorem effect_appendAs (h : s.WellLinked) (hitem : s.Insertable p item) (l : Label) :
    Effect s ((s.setLabel item l).append p item) (some (p, .append item)) none := by
  have lab := sameLinks_setLabel s item l
  exact (effect_append (lab.wellLinked h) (lab.insertable hitem)).of_sameLinks lab

theorem effect_replaceChildAs (h : s.WellLinked) (hitem : s.Insertable p item)
    (hchild : child ∈ s.children p) (l : Label) :
    Effect s ((s.setLabel item l).replaceChild p child item) (some (p, .replace child item))
      (some child) := by
  have lab := sameLinks_setLabel s item l
  have hchild' : child ∈ (s.setLabel item l).children p := by
    rw [lab.children]
    exact hchild
  exact (effect_replaceChild (lab.wellLinked h) (lab.insertable hitem) hchild').of_sameLinks lab

theorem effect_erase (h : s.WellLinked) (hchild : child ∈ s.children p) :
    Effect s ((s.unlink p child).release child) (some (p, .erase child)) (some child) :=
  (edited_unlink h hchild).effect_release h rfl hchild fun _ he => nomatch he

/-- An operation on a store with a fresh node is an operation on the store before. -/
theorem Effect.of_grown {ids ns : List NodeId} (h : s.WellLinked) (g : Grown s t ids ns)
    (hp : s.Has p) (he : Effect t u (some (p, e)) none) : Effect s u (some (p, e)) none where
  wellLinked := he.wellLinked
  edited := by
    intro _ _ h
    cases h
    rw [he.edited p e rfl, g.children_of_has h hp]
  removed := he.removed
  kept q hq hne _ := by
    rw [he.kept q (g.keeps.has hq) hne fun _ hr => (nomatch hr), g.children_of_has h hq]

theorem IsContainer.has (h : s.IsContainer p) : s.Has p := by
  obtain ⟨content, hcontent, -⟩ := h
  obtain ⟨c, hc, -⟩ := Option.map_eq_some_iff.1 hcontent
  exact has_iff.2 ⟨c, hc⟩

/-- A fresh node may become a child of any container. -/
theorem insertable_fresh (h : s.WellLinked) (hp : s.IsContainer p)
    (g : Grown s t [item] [item]) (hitem : ¬ s.Has item) (hcell : t.child? item = none) :
    t.Insertable p item := by
  have hnil : t.children item = [] := children_eq trivial hcell
  refine ⟨hp.congr (content?_congr (g.keeps.cell hp.has)), ?_, ?_, ?_⟩
  · exact g.forest.has item List.mem_cons_self
  · intro q hq
    rcases g.cases q with hq' | hq' | hq'
    · rw [g.children_of_has h hq'] at hq
      exact hitem (h.has_of_mem hq)
    · rw [List.mem_singleton.1 hq', hnil] at hq
      cases hq
    · rw [hq'.children_eq_nil] at hq
      cases hq
  · intro hbelow
    rcases Below.iff_children.1 hbelow with ⟨k, hk, -⟩ | rfl
    · rw [hnil] at hk
      cases hk
    · exact hitem hp.has

theorem grown_create? {content : Content} (hcontent : content.child? = none) {id : NodeId}
    (hcreate : s.create? content = some (id, t)) : Grown s t [id] [id] :=
  Grown.create (.refl s) hcontent hcreate

/-- A new reference may become a child of any container. -/
theorem createReference?_cases (h : s.WellLinked) (target : NodeId) :
    (s.isFull = true ∧ s.createReference? target = none) ∨
      ∃ t, s.isFull = false ∧ s.createReference? target = some (s.cells.size, t) ∧
        Grown s t [s.cells.size] [s.cells.size] ∧ t.Within ∧
        ∀ p, s.IsContainer p → t.Insertable p s.cells.size := by
  cases hfull : s.isFull with
  | true =>
    refine .inl ⟨rfl, ?_⟩
    rw [createReference?, create?, take?, hfull]
    rfl
  | false =>
    have hcreate : s.createReference? target = some (s.cells.size,
        s.adopt (.standalone (.reference (s.resolve target)))) :=
      create?_eq_some_iff.2 ⟨hfull, rfl, rfl⟩
    have g : Grown s _ [s.cells.size] [s.cells.size] := grown_create? rfl hcreate
    refine .inr ⟨_, rfl, hcreate, g, within_adopt hfull _, fun p hp => ?_⟩
    refine insertable_fresh h hp g (Nat.lt_irrefl _) ?_
    rw [child?, content?, getElem?_adopt, if_pos rfl]
    rfl

theorem effect_pushReference {target : NodeId} {f : NodeId → Store → Store} {l : Label}
    (h : s.WellLinked) (hp : s.IsContainer p)
    (hf : ∀ id t, f id t = (t.setLabel id l).append p id) :
    Effect s (((s.createReference? target).map fun (id, s) => f id s).getD s)
      (if s.isFull then none else some (p, .append s.cells.size)) none := by
  rcases createReference?_cases h target with ⟨hfull, hnone⟩ | ⟨t, hfull, hcreate, g, -, hitem⟩
  · rw [hnone, hfull]
    exact .refl h
  · have happend := effect_appendAs (g.wellLinked h (Nat.le_refl 1)) (hitem p hp) l
    rw [hcreate, hfull]
    simp only [Option.map_some, Option.getD_some, hf, Bool.false_eq_true, if_false]
    exact happend.of_grown h g hp.has

namespace Call

/-- An operation that makes a fresh tree or fails changes no list. -/
theorem effect_built {r : Option NodeId × Store} (h : s.WellLinked) (hr : Built s r) :
    Effect s r.2 none none := by
  obtain ⟨_ | id, t⟩ := r
  · exact .grown h hr (Nat.zero_le 1)
  · obtain ⟨⟨ns, g⟩, -⟩ := hr
    exact .grown h g (Nat.le_refl 1)

/-- **Tree operations are list operations.** -/
theorem effect (h : s.WellLinked) (c : Call) (hc : c.Allowed s) :
    Effect s (c.run s) (c.edit? s) (c.released? s) := by
  cases c with
  | useArena arena => exact .sameLinks h (sameLinks_withArena s arena)
  | create content => exact effect_built h (built_create? hc)
  | createReference target => exact effect_built h (built_create? rfl)
  | createArrayOf values => exact effect_built h (built_createArrayOf values s)
  | read options bytes => exact effect_built h (built_read options bytes s)
  | duplicate deep id => exact effect_built h (built_duplicate deep id s)
  | append parent item => exact effect_append h hc
  | insertBefore parent child item => exact effect_insertBefore h hc.1 hc.2
  | unlink parent child => exact effect_unlink h hc
  | replace parent child item => exact effect_replace h hc.1 hc.2
  | pushItem array item => exact effect_appendAs h hc .none
  | pushMember object name item => exact effect_appendAs h hc (.owned name)
  | pushLentMember object name item => exact effect_appendAs h hc (.borrowed name)
  | pushItemReference array target =>
    exact effect_pushReference (f := fun id t => t.pushItem array id) h hc fun _ _ => rfl
  | pushMemberReference object name target =>
    exact effect_pushReference (f := fun id t => t.pushMember object name id) h hc fun _ _ => rfl
  | insertItem array index item =>
    have l := sameLinks_setLabel s item .none
    have hitem := l.insertable hc
    have hwell := l.wellLinked h
    simp only [run, edit?, released?, insertItem?]
    by_cases hindex : index < 0
    · rw [if_pos hindex, if_pos hindex]
      exact .refl h
    · rw [if_neg hindex, if_neg hindex]
      cases hchild : (s.setLabel item .none).childAt? array index with
      | none =>
        refine Effect.of_sameLinks l (.insertAt (effect_append hwell hitem) ?_)
        apply Edit.apply_insertAt_of_le
        rw [childAt?, if_neg hindex] at hchild
        exact List.getElem?_eq_none_iff.1 hchild
      | some child =>
        have hmem := mem_of_childAt? hchild
        refine Effect.of_sameLinks l (.insertAt (effect_insertBefore hwell hitem hmem) ?_)
        rw [childAt?, if_neg hindex] at hchild
        exact Edit.apply_insertAt_of_getElem? (hwell.linked array).nodup hchild
  | replaceItem array index item =>
    simp only [run, edit?, released?, replaceItem?]
    cases hchild : s.childAt? array index with
    | none => exact .refl h
    | some child =>
      simp only [Option.map_some, Option.getD_some]
      exact effect_replaceChildAs h hc (mem_of_childAt? hchild) .none
  | replaceMember object name item =>
    simp only [run, edit?, released?, replaceMember?]
    cases hchild : s.childNamed? object name with
    | none => exact .refl h
    | some child =>
      simp only [Option.map_some, Option.getD_some]
      exact effect_replaceChildAs h hc (mem_of_childNamed? hchild) (.owned name)
  | detachItem parent index =>
    simp only [run, edit?, released?, detachItem?]
    cases hchild : s.childAt? parent index with
    | none => exact .refl h
    | some child => exact effect_unlink h (mem_of_childAt? hchild)
  | detachMember object name =>
    simp only [run, edit?, released?, detachMember?]
    cases hchild : s.childNamed? object name with
    | none => exact .refl h
    | some child => exact effect_unlink h (mem_of_childNamed? hchild)
  | eraseItem parent index =>
    simp only [run, edit?, released?, Store.eraseItem, detachItem?]
    cases hchild : s.childAt? parent index with
    | none => exact .refl h
    | some child => exact effect_erase h (mem_of_childAt? hchild)
  | eraseMember object name =>
    simp only [run, edit?, released?, Store.eraseMember, detachMember?]
    cases hchild : s.childNamed? object name with
    | none => exact .refl h
    | some child => exact effect_erase h (mem_of_childNamed? hchild)
  | release id => exact .released h hc.1 hc.2

end Call

/-! ## Runs -/

/-- The stores that allowed calls lead to, starting from an empty one. -/
inductive Reachable : Store → Prop
  | empty (arena : Option Arena) : Reachable (.empty arena)
  | call {s : Store} {c : Call} : Reachable s → c.Allowed s → Reachable (c.run s)

theorem wellLinked_empty (arena : Option Arena) : (Store.empty arena).WellLinked := by
  have hnil : ∀ p, (Store.empty arena).children p = [] := by
    intro p
    have hnot : ¬ (Store.empty arena).Has p := Nat.not_lt_zero p
    exact (bare_of_not_has hnot).children_eq_nil
  refine ⟨fun p => ?_, fun p => ?_, ?_, fun _ => ⟨rfl, rfl⟩, ⟨fun p => ⟨p, ?_⟩⟩⟩
  · rw [hnil]
    rfl
  · rw [hnil]
    trivial
  · intro p q i hp
    rw [hnil] at hp
    cases hp
  · intro i hi
    rw [hnil] at hi
    cases hi

theorem Reachable.wellLinked (h : s.Reachable) : s.WellLinked := by
  induction h with
  | empty arena => exact wellLinked_empty arena
  | call _ hc ih => exact (Call.effect ih _ hc).wellLinked

/-- **Runs of tree operations are runs of list operations.** In every store that a run reaches,
children are linked both ways from the first to the last and no node is a child twice, and the next
call does to the lists of children what its list operation says. -/
theorem Reachable.refines (h : s.Reachable) :
    s.WellLinked ∧ ∀ c : Call, c.Allowed s → Effect s (c.run s) (c.edit? s) (c.released? s) :=
  ⟨h.wellLinked, fun c hc => c.effect h.wellLinked hc⟩

/-- An array of three items, which is node 3, and a node beside it. -/
def threeItems : Store :=
  Call.run (Call.run (.empty none) (.createArrayOf [.null, .bool true, .null]))
    (.create (.scalar .null))

theorem reachable_threeItems : threeItems.Reachable ∧ threeItems.Insertable 3 4 := by
  have hitems : (Call.run (.empty none) (.createArrayOf [.null, .bool true, .null])).Reachable :=
    .call (.empty none) trivial
  have hitem : threeItems.Insertable 3 4 :=
    insertable_fresh hitems.wellLinked ⟨.array (some 0), rfl, rfl⟩ (grown_create? rfl rfl)
      (by decide) rfl
  exact ⟨.call hitems rfl, hitem⟩

/-- Before the second of three items another one is put in, or it takes the place of the second, or
the second is taken out. Each time the links of its neighbours change. -/
theorem refines_middle_item :
    threeItems.Reachable ∧ threeItems.children 3 = [0, 1, 2] ∧
      (let s := Call.run threeItems (.insertBefore 3 1 4)
       s.children 3 = [0, 4, 1, 2] ∧ s.Linked none [0, 4, 1, 2] none) ∧
      (let s := Call.run threeItems (.replace 3 1 4)
       s.children 3 = [0, 4, 2] ∧ s.Linked none [0, 4, 2] none) ∧
      let s := Call.run threeItems (.unlink 3 1)
      s.children 3 = [0, 2] ∧ s.Linked none [0, 2] none ∧ s.prev? 1 = none ∧ s.next? 1 = none := by
  obtain ⟨hs, hitem⟩ := reachable_threeItems
  have hchildren : threeItems.children 3 = [0, 1, 2] := by decide
  have hmem : 1 ∈ threeItems.children 3 := by
    rw [hchildren]
    decide
  have hinsert := hs.refines.2 (.insertBefore 3 1 4) ⟨hitem, hmem⟩
  have hreplace := hs.refines.2 (.replace 3 1 4) ⟨hitem, hmem⟩
  have herase := hs.refines.2 (.unlink 3 1) hmem
  have hinserted : (Call.run threeItems (.insertBefore 3 1 4)).children 3 = [0, 4, 1, 2] := by
    rw [hinsert.edited 3 _ rfl, hchildren]
    rfl
  have hreplaced : (Call.run threeItems (.replace 3 1 4)).children 3 = [0, 4, 2] := by
    rw [hreplace.edited 3 _ rfl, hchildren]
    rfl
  have herased : (Call.run threeItems (.unlink 3 1)).children 3 = [0, 2] := by
    rw [herase.edited 3 _ rfl, hchildren]
    rfl
  have hinserted_links := hinsert.wellLinked.linked 3
  have hreplaced_links := hreplace.wellLinked.linked 3
  have herased_links := herase.wellLinked.linked 3
  rw [hinserted] at hinserted_links
  rw [hreplaced] at hreplaced_links
  rw [herased] at herased_links
  exact ⟨hs, hchildren, ⟨hinserted, hinserted_links⟩, ⟨hreplaced, hreplaced_links⟩, herased,
    herased_links, herase.removed 3 _ 1 rfl rfl⟩

end LinkedJson.Store
