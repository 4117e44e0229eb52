import LinkedJson.Proofs.Store.Ownership

/-!
# Runs against one arena

A `Run` is a sequence of operations that take their nodes from one arena, give them back to it, and
use no node that is no longer live. It keeps a list of owners: a tree that is made or taken out of
its container enters it (`Call.freed?`), and a tree that is put into a container or released leaves
it (`Call.bound?`).

After every step the live nodes are those that the owners reach, each by one owner
(`Run.live_eq_owned`).
-/

namespace LinkedJson.Store

variable {s t u : Store} {i p r id child item : NodeId} {a : Arena} {owners live : List NodeId}

/-! ## Splices and the arena -/

section

variable (s : Store)

@[simp] theorem arena_setNextOf (id next : Option NodeId) :
    (s.setNextOf id next).arena = s.arena := by
  cases id <;> rfl

@[simp] theorem arena_setPrevOf (id prev : Option NodeId) :
    (s.setPrevOf id prev).arena = s.arena := by
  cases id <;> rfl

@[simp] theorem arena_redirect (p : NodeId) (first : Bool) (prev item : Option NodeId) :
    (s.redirect p first prev item).arena = s.arena := by
  cases first with
  | true => rfl
  | false => exact arena_setNextOf ..

theorem arena_append (p item : NodeId) : (s.append p item).arena = s.arena := by
  unfold append
  cases (s.children p).getLast? <;> rfl

theorem arena_insertBefore (p child item : NodeId) :
    (s.insertBefore p child item).arena = s.arena := by
  simp only [insertBefore, setNext, setPrev, arena_modify, arena_redirect]

theorem arena_unlink (p item : NodeId) : (s.unlink p item).arena = s.arena := by
  simp only [unlink, setNext, setPrev, setChild, arena_modify, apply_ite Store.arena,
    arena_setPrevOf, arena_setNextOf, ite_self]

theorem arena_replace (p child item : NodeId) : (s.replace p child item).arena = s.arena := by
  simp only [replace, setNext, setPrev, arena_modify, arena_redirect, arena_setPrevOf]

end

/-! ## Changes of one list -/

namespace Edit

/-- The node that enters the list. -/
def entered? : Edit → Option NodeId
  | append item | insertAt _ item | insertBefore _ item | replace _ item => some item
  | erase _ => none

theorem mem_apply {e : Edit} {ids : List NodeId} (hnodup : ids.Nodup)
    (hremoved : ∀ i, e.removed? = some i → i ∈ ids) :
    i ∈ e.apply ids ↔ (i ∈ ids ∧ e.removed? ≠ some i) ∨ e.entered? = some i := by
  cases e with
  | append item => simp [apply, removed?, entered?, eq_comm]
  | insertAt index item =>
    rw [apply, List.mem_insertIdx (Nat.min_le_right ..)]
    simp [removed?, entered?, eq_comm, or_comm]
  | insertBefore child item =>
    rw [apply, List.mem_insertIdx List.idxOf_le_length]
    simp [removed?, entered?, eq_comm, or_comm]
  | erase child =>
    rw [apply, hnodup.mem_erase_iff]
    simp [removed?, entered?, eq_comm, and_comm]
  | replace child item =>
    obtain ⟨xs, ys, rfl⟩ := List.append_of_mem (hremoved child rfl)
    obtain ⟨-, hrest, hdisjoint⟩ := List.nodup_append.1 hnodup
    have hxs : child ∉ xs := fun hmem => hdisjoint child hmem child List.mem_cons_self rfl
    have hys : child ∉ ys := (List.nodup_cons.1 hrest).1
    have heq : (replace child item).apply (xs ++ child :: ys) = xs ++ item :: ys := by
      simpa using @apply_replace child item xs ys hxs
    rw [heq]
    by_cases hi : child = i
    · subst hi
      simp [removed?, entered?, hxs, hys, eq_comm]
    · have hi' : i ≠ child := Ne.symm hi
      simp [removed?, entered?, hi', eq_comm]
      tauto

end Edit

/-- An item that is live stands alone, so it leaves the owners; a child that leaves the list enters
them. -/
theorem Accounted.edit (h : Accounted a s owners live) {e : Edit}
    (hedited : s.Edited t p (e.apply (s.children p))) (harena : t.arena = s.arena) (hp : p ∈ live)
    (hentered : ∀ i, e.entered? = some i → i ∈ owners)
    (hremoved : ∀ i, e.removed? = some i → i ∈ s.children p) :
    Accounted a t (e.removed?.toList ++ e.entered?.elim owners owners.erase) live := by
  have hnew : ∀ i, i ∈ e.apply (s.children p) ↔
      (i ∈ s.children p ∧ e.removed? ≠ some i) ∨ e.entered? = some i :=
    fun i => Edit.mem_apply (h.wellLinked.linked p).nodup hremoved
  have hchild : ∀ i ∈ owners, i ∉ s.children p := fun i hi => (h.mem_owners.1 hi).2 p
  have hmem : ∀ i, i ∈ e.entered?.elim owners owners.erase ↔
      i ∈ owners ∧ e.entered? ≠ some i := by
    intro i
    cases e.entered? with
    | none => simp
    | some item => simp [h.owners_nodup.mem_erase_iff, and_comm, eq_comm]
  have hnodup : (e.entered?.elim owners owners.erase).Nodup := by
    cases e.entered? with
    | none => exact h.owners_nodup
    | some item => exact h.owners_nodup.erase item
  refine h.edited hedited harena hp ?_ ?_ ?_
  · intro i hi hold
    rcases (hnew i).1 hi with hi | hi
    · exact absurd hi.1 hold
    · exact (h.mem_owners.1 (hentered i hi)).1
  · cases hr : e.removed? with
    | none => exact hnodup
    | some child =>
      refine List.nodup_cons.2 ⟨fun hi => ?_, hnodup⟩
      exact hchild child ((hmem child).1 hi).1 (hremoved child hr)
  · intro i
    rw [List.mem_append, Option.mem_toList, hmem, hnew]
    constructor
    · intro hi
      rcases hi with hi | ⟨hi, hne⟩
      · refine ⟨.inr (hremoved i hi), ?_⟩
        rintro (hstays | henters)
        · exact hstays.2 hi
        · exact hchild i (hentered i henters) (hremoved i hi)
      · refine ⟨.inl hi, ?_⟩
        rintro (hstays | henters)
        · exact hchild i hi hstays.1
        · exact hne henters
    · intro hi
      obtain ⟨hi | hi, hnot⟩ := hi
      · exact .inr ⟨hi, fun henters => hnot (.inr henters)⟩
      · refine .inl (Classical.byContradiction fun hne => hnot (.inl ⟨hi, hne⟩))

/-! ## Outcomes -/

/-- The store `t` is accounted for. Of the nodes that were live in `s` just those are not live any
more that hung from the node `gone`. -/
def Settles (a : Arena) (s t : Store) (owners live : List NodeId) (gone : Option NodeId) : Prop :=
  ∃ live', Accounted a t owners live' ∧
    ∀ i, s.Has i → (i ∈ live' ↔ i ∈ live ∧ ∀ r, gone = some r → ¬ s.Below i r)

theorem Accounted.settles (h : Accounted a t owners live) : Settles a s t owners live none :=
  ⟨live, h, fun _ _ => by simp⟩

theorem SameLinks.below_iff (l : SameLinks s t) : t.Below i p ↔ s.Below i p := by
  refine ⟨l.below, fun h => ?_⟩
  induction h with
  | refl i => exact .refl i
  | child hmem _ ih => exact .child (by rwa [l.children]) ih

/-- A new label before an operation makes no difference. -/
theorem Settles.of_sameLinks {gone : Option NodeId} (l : SameLinks s t)
    (h : Settles a t u owners live gone) : Settles a s u owners live gone := by
  obtain ⟨live', haccounted, hlive⟩ := h
  refine ⟨live', haccounted, fun i hi => ?_⟩
  rw [hlive i (l.has.2 hi)]
  simp only [l.below_iff]

/-- What is built belongs to its root. -/
theorem Accounted.built {o : Option NodeId × Store} (h : Accounted a s owners live)
    (ho : Built s o) : Settles a s o.2 (o.1.toList ++ owners) live none := by
  obtain ⟨_ | id, t⟩ := o
  · obtain ⟨live', haccounted, hlive⟩ := h.grown ho (Nat.zero_le 1) fun hne => absurd rfl hne
    exact ⟨live', haccounted, fun i hi => by simp [hlive i hi]⟩
  · obtain ⟨⟨ns, g⟩, hwithin⟩ := ho
    obtain ⟨live', haccounted, hlive⟩ := h.grown g (Nat.le_refl 1) fun _ => hwithin
    exact ⟨live', haccounted, fun i hi => by simp [hlive i hi]⟩

theorem Accounted.release (h : Accounted a s owners live) (hid : id ∈ owners) :
    Settles a s (s.release id) (owners.erase id) live (some id) := by
  obtain ⟨live', haccounted, hlive⟩ := h.released hid
  refine ⟨live', haccounted, fun i _ => ?_⟩
  rw [hlive]
  simp

theorem Accounted.mem_owners_of_insertable (h : Accounted a s owners live)
    (hitem : s.Insertable p item) (hlive : item ∈ live) : item ∈ owners :=
  h.mem_owners.2 ⟨hlive, hitem.standalone⟩

theorem Accounted.append (h : Accounted a s owners live) (hitem : s.Insertable p item)
    (hp : p ∈ live) (hlive : item ∈ live) :
    Accounted a (s.append p item) (owners.erase item) live := by
  refine h.edit (edited_append h.wellLinked hitem) (s.arena_append p item) hp ?_
    fun _ hr => (nomatch hr)
  intro i hi
  cases hi
  exact h.mem_owners_of_insertable hitem hlive

theorem Accounted.insertBefore (h : Accounted a s owners live) (hitem : s.Insertable p item)
    (hchild : child ∈ s.children p) (hp : p ∈ live) (hlive : item ∈ live) :
    Accounted a (s.insertBefore p child item) (owners.erase item) live := by
  refine h.edit (edited_insertBefore h.wellLinked hitem hchild) (s.arena_insertBefore p child item)
    hp ?_ fun _ hr => (nomatch hr)
  intro i hi
  cases hi
  exact h.mem_owners_of_insertable hitem hlive

theorem Accounted.unlink (h : Accounted a s owners live) (hchild : child ∈ s.children p)
    (hp : p ∈ live) : Accounted a (s.unlink p child) (child :: owners) live := by
  refine h.edit (edited_unlink h.wellLinked hchild) (s.arena_unlink p child) hp
    (fun _ hi => nomatch hi) ?_
  intro i hi
  cases hi
  exact hchild

theorem Accounted.replace (h : Accounted a s owners live) (hitem : s.Insertable p item)
    (hchild : child ∈ s.children p) (hp : p ∈ live) (hlive : item ∈ live) :
    Accounted a (s.replace p child item) (child :: owners.erase item) live := by
  refine h.edit (edited_replace h.wellLinked hitem hchild) (s.arena_replace p child item) hp ?_ ?_
  · intro i hi
    cases hi
    exact h.mem_owners_of_insertable hitem hlive
  · intro i hi
    cases hi
    exact hchild

/-- A child that has left its list is released. -/
theorem Settles.release_child {new : List NodeId} (h : s.WellLinked) (e : s.Edited t p new)
    (hchild : child ∈ s.children p) (haccounted : Accounted a t (child :: owners) live) :
    Settles a s (t.release child) owners live (some child) := by
  obtain ⟨live', haccounted', hlive⟩ := haccounted.released List.mem_cons_self
  rw [List.erase_cons_head] at haccounted'
  refine ⟨live', haccounted', fun i _ => ?_⟩
  rw [hlive, e.below_iff h (h.not_below_child hchild)]
  simp

/-! ## Calls -/

namespace Call

/-- The nodes that the caller names. -/
def nodes : Call → List NodeId
  | useArena _ | create _ | createArrayOf _ | read .. => []
  | createReference id | duplicate _ id | release id | detachItem id _ | detachMember id _
  | eraseItem id _ | eraseMember id _ => [id]
  | append parent item | pushItem parent item | pushMember parent _ item
  | pushLentMember parent _ item | insertItem parent _ item | replaceItem parent _ item
  | replaceMember parent _ item => [parent, item]
  | unlink parent child => [parent, child]
  | insertBefore parent child item | replace parent child item => [parent, child, item]
  | pushItemReference parent target | pushMemberReference parent _ target => [parent, target]

/-- The root of a tree that stands alone after an operation and did not before it: a tree that was
made, or a child that was taken out. -/
def freed? (s : Store) : Call → Option NodeId
  | create content => (s.create? content).map Prod.fst
  | createReference target => (s.createReference? target).map Prod.fst
  | createArrayOf values => (s.createArrayOf? values).map Prod.fst
  | read options bytes => (s.read options bytes).1.toOption.map Prod.fst
  | duplicate deep id => (s.duplicate? deep id).map Prod.fst
  | unlink _ child | replace _ child _ => some child
  | detachItem parent index => s.childAt? parent index
  | detachMember parent name => s.childNamed? parent name
  | _ => none

/-- The root of a tree that stands alone before an operation and does not after it: an item that was
put into a container, or a tree that was released. -/
def bound? (s : Store) : Call → Option NodeId
  | append _ item | insertBefore _ _ item | replace _ _ item | pushItem _ item
  | pushMember _ _ item | pushLentMember _ _ item => some item
  | insertItem _ index item => if index < 0 then none else some item
  | replaceItem parent index item => (s.childAt? parent index).map fun _ => item
  | replaceMember parent name item => (s.childNamed? parent name).map fun _ => item
  | release id => some id
  | _ => none

/-- The roots that the caller has to release some day, after an operation. -/
def ownersAfter (s : Store) (owners : List NodeId) (c : Call) : List NodeId :=
  (c.freed? s).toList ++ (c.bound? s).elim owners owners.erase

/-- An operation that respects the arena: it is allowed, it names live nodes only, and nodes come
from the same arena as before. -/
structure Proper (s : Store) (c : Call) : Prop where
  allowed : c.Allowed s
  live : ∀ i ∈ c.nodes, s.isLive i = some true
  sameArena : ∀ arena, c ≠ useArena arena

end Call

theorem Accounted.mem_live_of_isLive (h : Accounted a s owners live)
    (hi : s.isLive i = some true) : i ∈ live := by
  rw [isLive, h.arena] at hi
  simpa using hi

theorem Accounted.appendAs (h : Accounted a s owners live) (hitem : s.Insertable p item)
    (hp : p ∈ live) (hlive : item ∈ live) (l : Label) :
    Accounted a ((s.setLabel item l).append p item) (owners.erase item) live := by
  have lab := sameLinks_setLabel s item l
  exact (h.of_sameLinks lab rfl).append (lab.insertable hitem) hp hlive

theorem Accounted.replaceChildAs (h : Accounted a s owners live) (hitem : s.Insertable p item)
    (hchild : child ∈ s.children p) (hp : p ∈ live) (hlive : item ∈ live) (l : Label) :
    Settles a s ((s.setLabel item l).replaceChild p child item) (owners.erase item) live
      (some child) := by
  have lab := sameLinks_setLabel s item l
  have h' := h.of_sameLinks lab rfl
  have hitem' := lab.insertable hitem
  have hchild' : child ∈ (s.setLabel item l).children p := by
    rw [lab.children]
    exact hchild
  refine Settles.of_sameLinks lab ?_
  exact Settles.release_child h'.wellLinked (edited_replace h'.wellLinked hitem' hchild') hchild'
    (h'.replace hitem' hchild' hp hlive)

theorem Accounted.erase (h : Accounted a s owners live) (hchild : child ∈ s.children p)
    (hp : p ∈ live) :
    Settles a s ((s.unlink p child).release child) owners live (some child) :=
  Settles.release_child h.wellLinked (edited_unlink h.wellLinked hchild) hchild
    (h.unlink hchild hp)

/-- A new reference belongs to the container that it goes into. -/
theorem Accounted.pushReference {target : NodeId} {f : NodeId → Store → Store} {l : Label}
    (h : Accounted a s owners live) (hcontainer : s.IsContainer p) (hp : p ∈ live)
    (hf : ∀ id t, f id t = (t.setLabel id l).append p id) :
    Settles a s (((s.createReference? target).map fun (id, s) => f id s).getD s) owners live
      none := by
  rcases createReference?_cases h.wellLinked target with
    ⟨-, hnone⟩ | ⟨t, -, hcreate, g, hwithin, hitem⟩
  · rw [hnone]
    exact h.settles
  · obtain ⟨live', h', hlive'⟩ := h.grown g (Nat.le_refl 1) fun _ => hwithin
    have hp' : p ∈ live' := (hlive' p hcontainer.has).2 hp
    have hid : s.cells.size ∈ live' := (h'.mem_owners.1 List.mem_cons_self).1
    have happend := h'.appendAs (hitem p hcontainer) hp' hid l
    rw [List.singleton_append, List.erase_cons_head] at happend
    rw [hcreate]
    simp only [Option.map_some, Option.getD_some, hf]
    exact ⟨live', happend, fun i hi => by simp [hlive' i hi]⟩

/-- **Every operation keeps the accounts.** -/
theorem Call.settles (h : Accounted a s owners live) {c : Call} (hc : c.Proper s) :
    Settles a s (c.run s) (c.ownersAfter s owners) live (c.released? s) := by
  obtain ⟨hallowed, hnodes, harena⟩ := hc
  have hlive : ∀ i ∈ c.nodes, i ∈ live := fun i hi => h.mem_live_of_isLive (hnodes i hi)
  cases c with
  | useArena arena => exact absurd rfl (harena arena)
  | create content => exact h.built (built_create? hallowed)
  | createReference target =>
    exact h.built (@built_create? s (.reference (s.resolve target)) rfl)
  | createArrayOf values =>
    rw [ownersAfter, freed?, map_fst_createArrayOf?]
    exact h.built (built_createArrayOf values s)
  | read options bytes => exact h.built (built_read options bytes s)
  | duplicate deep id =>
    rw [ownersAfter, freed?, map_fst_duplicate?]
    exact h.built (built_duplicate deep id s)
  | append parent item =>
    exact (h.append hallowed (hlive _ (by simp [nodes])) (hlive _ (by simp [nodes]))).settles
  | insertBefore parent child item =>
    exact (h.insertBefore hallowed.1 hallowed.2 (hlive _ (by simp [nodes]))
      (hlive _ (by simp [nodes]))).settles
  | unlink parent child => exact (h.unlink hallowed (hlive _ (by simp [nodes]))).settles
  | replace parent child item =>
    exact (h.replace hallowed.1 hallowed.2 (hlive _ (by simp [nodes]))
      (hlive _ (by simp [nodes]))).settles
  | pushItem array item =>
    exact (h.appendAs hallowed (hlive _ (by simp [nodes])) (hlive _ (by simp [nodes]))
      .none).settles
  | pushMember object name item =>
    exact (h.appendAs hallowed (hlive _ (by simp [nodes])) (hlive _ (by simp [nodes]))
      (.owned name)).settles
  | pushLentMember object name item =>
    exact (h.appendAs hallowed (hlive _ (by simp [nodes])) (hlive _ (by simp [nodes]))
      (.borrowed name)).settles
  | pushItemReference array target =>
    exact h.pushReference (f := fun id t => t.pushItem array id) hallowed
      (hlive _ (by simp [nodes])) fun _ _ => rfl
  | pushMemberReference object name target =>
    exact h.pushReference (f := fun id t => t.pushMember object name id) hallowed
      (hlive _ (by simp [nodes])) fun _ _ => rfl
  | insertItem array index item =>
    have hp := hlive array (by simp [nodes])
    have hitem := hlive item (by simp [nodes])
    have l := sameLinks_setLabel s item .none
    simp only [run, ownersAfter, freed?, bound?, released?, insertItem?]
    by_cases hindex : index < 0
    · rw [if_pos hindex, if_pos hindex]
      exact h.settles
    · rw [if_neg hindex, if_neg hindex]
      cases hchild : (s.setLabel item .none).childAt? array index with
      | none => exact (h.appendAs hallowed hp hitem .none).settles
      | some child =>
        have hmem := mem_of_childAt? hchild
        exact ((h.of_sameLinks l rfl).insertBefore (l.insertable hallowed) hmem hp hitem).settles
  | replaceItem array index item =>
    simp only [run, ownersAfter, freed?, bound?, released?, replaceItem?]
    cases hchild : s.childAt? array index with
    | none => exact h.settles
    | some child =>
      simp only [Option.map_some, Option.getD_some]
      exact h.replaceChildAs hallowed (mem_of_childAt? hchild) (hlive _ (by simp [nodes]))
        (hlive _ (by simp [nodes])) .none
  | replaceMember object name item =>
    simp only [run, ownersAfter, freed?, bound?, released?, replaceMember?]
    cases hchild : s.childNamed? object name with
    | none => exact h.settles
    | some child =>
      simp only [Option.map_some, Option.getD_some]
      exact h.replaceChildAs hallowed (mem_of_childNamed? hchild) (hlive _ (by simp [nodes]))
        (hlive _ (by simp [nodes])) (.owned name)
  | detachItem parent index =>
    simp only [run, ownersAfter, freed?, bound?, released?, detachItem?]
    cases hchild : s.childAt? parent index with
    | none => exact h.settles
    | some child => exact (h.unlink (mem_of_childAt? hchild) (hlive _ (by simp [nodes]))).settles
  | detachMember object name =>
    simp only [run, ownersAfter, freed?, bound?, released?, detachMember?]
    cases hchild : s.childNamed? object name with
    | none => exact h.settles
    | some child =>
      exact (h.unlink (mem_of_childNamed? hchild) (hlive _ (by simp [nodes]))).settles
  | eraseItem parent index =>
    simp only [run, ownersAfter, freed?, bound?, released?, Store.eraseItem, detachItem?]
    cases hchild : s.childAt? parent index with
    | none => exact h.settles
    | some child => exact h.erase (mem_of_childAt? hchild) (hlive _ (by simp [nodes]))
  | eraseMember object name =>
    simp only [run, ownersAfter, freed?, bound?, released?, Store.eraseMember, detachMember?]
    cases hchild : s.childNamed? object name with
    | none => exact h.settles
    | some child => exact h.erase (mem_of_childNamed? hchild) (hlive _ (by simp [nodes]))
  | release id => exact h.release (h.mem_owners.2 ⟨hlive _ (by simp [nodes]), hallowed.2⟩)

/-! ## Runs -/

/-- The stores that runs against the arena `a` lead to, with the roots that the caller has to
release some day. -/
inductive Run (a : Arena) : Store → List NodeId → Prop
  | start : Run a (.empty (some { a with live := [] })) []
  | call {s : Store} {owners : List NodeId} {c : Call} :
    Run a s owners → c.Proper s → Run a (c.run s) (c.ownersAfter s owners)

theorem Run.accounted (h : Run a s owners) : ∃ live, Accounted a s owners live := by
  induction h with
  | start => exact ⟨[], .empty a⟩
  | call _ hc ih =>
    obtain ⟨live, h⟩ := ih
    obtain ⟨live', h', -⟩ := Call.settles h hc
    exact ⟨live', h'⟩

/-- Nothing hangs from a reference, and what it refers to least of all. -/
theorem eq_of_below_reference {target : NodeId} (hr : s.content? r = some (.reference target))
    (hi : s.Below i r) : i = r := by
  have hnil : s.children r = [] := by
    refine children_eq trivial ?_
    rw [child?, hr]
    rfl
  rcases Below.iff_children.1 hi with ⟨k, hk, -⟩ | heq
  · rw [hnil] at hk
    cases hk
  · exact heq

/-- **The live nodes are what is owned.** After every step of a run the live nodes are those that
first children and next siblings lead to from the owners. Each is counted once and belongs to one
owner, and the owners are the live nodes that stand alone. A reference among them owns nothing but
itself. The arena holds no more than it may. From there on an operation ends the life of what hangs
from the node that it releases and of nothing else, and when it releases a reference, of the
reference only. -/
theorem Run.live_eq_owned (h : Run a s owners) :
    ∃ live : List NodeId, s.arena = some { a with live } ∧ live.Nodup ∧
      (∀ i, i ∈ live ↔ ∃ r ∈ owners, s.Reaches r i) ∧
      (∀ r ∈ owners, ∀ r' ∈ owners, ∀ i, s.Reaches r i → s.Reaches r' i → r = r') ∧
      owners.Nodup ∧ (∀ i, i ∈ owners ↔ i ∈ live ∧ s.Standalone i) ∧
      (∀ r ∈ owners, ∀ target, s.content? r = some (.reference target) →
        ∀ i, s.Reaches r i → i = r) ∧
      (∀ limit ∈ a.maxNodes, (live.length : Int) ≤ max limit 0) ∧
      ∀ c : Call, c.Proper s → ∃ live' : List NodeId,
        (c.run s).arena = some { a with live := live' } ∧
        (∀ i, s.Has i → (i ∈ live' ↔ i ∈ live ∧ ∀ r, c.released? s = some r → ¬ s.Below i r)) ∧
        ∀ r target, c.released? s = some r → s.content? r = some (.reference target) →
          ∀ i ∈ live, i ≠ r → i ∈ live' := by
  obtain ⟨live, h⟩ := h.accounted
  refine ⟨live, h.arena, h.nodup, fun _ => h.mem_live_iff, ?_, h.owners_nodup,
    fun _ => h.mem_owners, ?_, h.bound, ?_⟩
  · intro r hr r' hr' i hi hi'
    exact h.owner_unique hr hr' hi hi'
  · intro r hr target hcontent i hi
    have halone := (h.mem_owners.1 hr).2
    exact eq_of_below_reference hcontent ((h.wellLinked.reaches_iff halone).1 hi)
  · intro c hc
    obtain ⟨live', h', hlive'⟩ := Call.settles h hc
    refine ⟨live', h'.arena, hlive', ?_⟩
    intro r target hr hcontent i hi hne
    refine (hlive' i (h.has hi)).2 ⟨hi, fun r' hr' hbelow => ?_⟩
    rw [hr] at hr'
    cases hr'
    exact hne (eq_of_below_reference hcontent hbelow)

/-- A reference to an item of an array is released, and the array and the item live on. -/
theorem live_eq_owned_reference_released :
    let a : Arena := ⟨[], some 3, .unlimited⟩
    let pair := Call.run (Call.run (.empty (some a)) (.create (.array none)))
      (.create (.scalar .null))
    let s := Call.run (Call.run pair (.append 0 1)) (.createReference 1)
    Run a s [2, 0] ∧ ∃ live : List NodeId, (s.release 2).arena = some { a with live } ∧
      0 ∈ live ∧ 1 ∈ live := by
  intro a pair s
  have hpair : Run a pair [1, 0] :=
    .call (.call .start ⟨rfl, nofun, nofun⟩) ⟨rfl, nofun, nofun⟩
  obtain ⟨live, h⟩ := hpair.accounted
  have hzero := (h.mem_owners.1 (show 0 ∈ [1, 0] by decide)).2
  have hone := (h.mem_owners.1 (show 1 ∈ [1, 0] by decide)).2
  have hitem : pair.Insertable 0 1 := by
    refine ⟨⟨.array none, rfl, rfl⟩, show 1 < 2 by decide, hone, fun hbelow => ?_⟩
    cases WellLinked.eq_of_below hzero hbelow
  have hfilled : Run a (Call.run pair (.append 0 1)) [0] := by
    refine .call hpair ⟨hitem, ?_, nofun⟩
    intro i hi
    rcases List.mem_pair.1 hi with rfl | rfl <;> rfl
  have hs : Run a s [2, 0] := by
    refine .call hfilled ⟨trivial, ?_, nofun⟩
    intro i hi
    cases List.mem_singleton.1 hi
    rfl
  obtain ⟨live, harena, -, -, -, -, howners, -, -, hcalls⟩ := hs.live_eq_owned
  obtain ⟨-, halone⟩ := (howners 2).1 (by decide)
  have hlive : live = [2, 1, 0] := by
    cases harena
    rfl
  obtain ⟨live', harena', -, hkept⟩ := hcalls (.release 2) ⟨⟨show 2 < 3 by decide, halone⟩, by
    intro i hi
    cases List.mem_singleton.1 hi
    rfl, nofun⟩
  have hkept := hkept 2 1 rfl rfl
  refine ⟨hs, live', harena', hkept 0 ?_ (by decide), hkept 1 ?_ (by decide)⟩
  · simp [hlive]
  · simp [hlive]

end LinkedJson.Store
