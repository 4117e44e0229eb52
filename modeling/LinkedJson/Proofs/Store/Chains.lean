import LinkedJson.Store.Links
import LinkedJson.Store.Release
import LinkedJson.Store.Views

/-!
# Chains of siblings

`Linked s prev ids stop` says that the links of a store string the nodes `ids` together in both
directions, from behind `prev` to before `stop`. A chain that ends nowhere (`stop = none`) has no
node twice, so a container whose first child begins such a chain has exactly those children
(`children_eq`).
-/

namespace LinkedJson.Store

/-! ## Cells that agree -/

section

variable {s t : Store} {i : NodeId}

theorem has_iff : s.Has i ↔ ∃ c, s.cells[i]? = some c := by
  constructor
  · intro h
    exact ⟨_, Array.getElem?_eq_getElem h⟩
  · intro h
    obtain ⟨c, hc⟩ := h
    obtain ⟨h, -⟩ := Array.getElem?_eq_some_iff.1 hc
    exact h

theorem exists_content?_of_has (h : s.Has i) : ∃ content, s.content? i = some content := by
  obtain ⟨cell, hcell⟩ := has_iff.1 h
  exact ⟨cell.content, by rw [content?, hcell]; rfl⟩

variable (h : t.cells[i]? = s.cells[i]?)
include h

theorem has_congr : t.Has i ↔ s.Has i := by
  rw [has_iff, has_iff, h]

theorem next?_congr : t.next? i = s.next? i := by
  rw [next?, next?, h]

theorem prev?_congr : t.prev? i = s.prev? i := by
  rw [prev?, prev?, h]

theorem content?_congr : t.content? i = s.content? i := by
  rw [content?, content?, h]

theorem child?_congr : t.child? i = s.child? i := by
  rw [child?, child?, content?_congr h]

end

/-! ## What writes do to first children -/

section

variable (s : Store) (id i : NodeId)

@[simp] theorem child?_setNext (next : Option NodeId) :
    (s.setNext id next).child? i = s.child? i := by
  rw [child?, content?_setNext, child?]

@[simp] theorem child?_setPrev (prev : Option NodeId) :
    (s.setPrev id prev).child? i = s.child? i := by
  rw [child?, content?_setPrev, child?]

@[simp] theorem child?_setLabel (l : Label) : (s.setLabel id l).child? i = s.child? i := by
  rw [child?, content?_setLabel, child?]

variable (prev next : NodeId)

theorem next?_link :
    (s.link prev next).next? i = if prev = i ∧ s.Has i then some next else s.next? i := by
  rw [link, next?_setPrev, next?_setNext]

theorem prev?_link :
    (s.link prev next).prev? i = if next = i ∧ s.Has i then some prev else s.prev? i := by
  have hhas : (s.setNext prev (some next)).Has i ↔ s.Has i := has_modify ..
  rw [link, prev?_setPrev, prev?_setNext]
  simp only [hhas]

@[simp] theorem child?_link : (s.link prev next).child? i = s.child? i := by
  rw [link, child?_setPrev, child?_setNext]

@[simp] theorem has_link : (s.link prev next).Has i ↔ s.Has i :=
  (has_modify ..).trans (has_modify ..)

end

theorem length_le_size {s : Store} {ids : List NodeId} (hnodup : ids.Nodup)
    (hhas : ∀ i ∈ ids, s.Has i) : ids.length ≤ s.cells.size := by
  have hsubset : ids ⊆ List.range s.cells.size := by
    intro i hi
    exact List.mem_range.2 (hhas i hi)
  have hle := hnodup.length_le_of_subset hsubset
  rwa [List.length_range] at hle

/-! ## Linked nodes -/

/-- The nodes are siblings in this order: the first has `prev` before it, the last has `stop` behind
it. -/
def Linked (s : Store) : Option NodeId → List NodeId → Option NodeId → Prop
  | _, [], _ => True
  | prev, id :: ids, stop =>
    s.Has id ∧ s.prev? id = prev ∧ s.next? id = ids.head?.or stop ∧ s.Linked (some id) ids stop

namespace Linked

variable {s t : Store} {prev stop : Option NodeId} {id : NodeId} {ids xs ys : List NodeId}

theorem has (h : s.Linked prev ids stop) : ∀ i ∈ ids, s.Has i := by
  induction ids generalizing prev with
  | nil =>
    intro i hi
    cases hi
  | cons id ids ih =>
    obtain ⟨hhas, -, -, hrest⟩ := h
    intro i hi
    rcases List.mem_cons.1 hi with rfl | hi
    · exact hhas
    · exact ih hrest i hi

/-- Only the nodes of a chain and the links between them count. -/
theorem congr (h : s.Linked prev ids stop) (hhas : ∀ i ∈ ids, t.Has i)
    (hprev : ∀ i ∈ ids, t.prev? i = s.prev? i) (hnext : ∀ i ∈ ids, t.next? i = s.next? i) :
    t.Linked prev ids stop := by
  induction ids generalizing prev with
  | nil => trivial
  | cons id ids ih =>
    obtain ⟨-, hp, hn, hrest⟩ := h
    have mem : id ∈ id :: ids := List.mem_cons_self
    refine ⟨hhas id mem, (hprev id mem).trans hp, (hnext id mem).trans hn, ih hrest ?_ ?_ ?_⟩
    · exact fun i hi => hhas i (List.mem_cons_of_mem id hi)
    · exact fun i hi => hprev i (List.mem_cons_of_mem id hi)
    · exact fun i hi => hnext i (List.mem_cons_of_mem id hi)

theorem of_cells (h : s.Linked prev ids stop) (hcells : ∀ i ∈ ids, t.cells[i]? = s.cells[i]?) :
    t.Linked prev ids stop :=
  h.congr (fun i hi => (has_congr (hcells i hi)).2 (h.has i hi))
    (fun i hi => prev?_congr (hcells i hi)) (fun i hi => next?_congr (hcells i hi))

theorem append_iff : s.Linked prev (xs ++ ys) stop ↔
    s.Linked prev xs (ys.head?.or stop) ∧ s.Linked (xs.getLast?.or prev) ys stop := by
  induction xs generalizing prev with
  | nil =>
    constructor
    · intro h
      exact ⟨trivial, h⟩
    · intro h
      obtain ⟨-, h⟩ := h
      exact h
  | cons x xs ih =>
    have hlast : (x :: xs).getLast?.or prev = xs.getLast?.or (some x) := by
      rw [List.getLast?_cons]
      cases xs.getLast? <;> rfl
    have hhead : (xs ++ ys).head?.or stop = xs.head?.or (ys.head?.or stop) := by
      rw [List.head?_append, Option.or_assoc]
    rw [hlast, List.cons_append, Linked, ih, Linked, hhead]
    constructor
    · intro h
      obtain ⟨hhas, hp, hn, hxs, hys⟩ := h
      exact ⟨⟨hhas, hp, hn, hxs⟩, hys⟩
    · intro h
      obtain ⟨⟨hhas, hp, hn, hxs⟩, hys⟩ := h
      exact ⟨hhas, hp, hn, hxs, hys⟩

/-- A node tells what comes behind it. -/
theorem tail_unique {prev' : Option NodeId} (hx : s.Linked prev (id :: xs) none)
    (hy : s.Linked prev' (id :: ys) none) : xs = ys := by
  induction xs generalizing prev prev' id ys with
  | nil =>
    obtain ⟨-, -, hn, -⟩ := hx
    obtain ⟨-, -, hn', -⟩ := hy
    rw [hn, Option.or_none, Option.or_none] at hn'
    exact (List.head?_eq_none_iff.1 hn'.symm).symm
  | cons x xs ih =>
    obtain ⟨-, -, hn, hrest⟩ := hx
    obtain ⟨-, -, hn', hrest'⟩ := hy
    rw [hn, Option.or_none, Option.or_none] at hn'
    obtain ⟨ys, rfl⟩ := List.head?_eq_some_iff.1 hn'.symm
    rw [ih hrest hrest']

theorem nodup (h : s.Linked prev ids none) : ids.Nodup := by
  induction ids generalizing prev with
  | nil => exact List.nodup_nil
  | cons id ids ih =>
    have hrest : s.Linked (some id) ids none := h.2.2.2
    refine List.nodup_cons.2 ⟨?_, ih hrest⟩
    intro hmem
    obtain ⟨xs, ys, rfl⟩ := List.append_of_mem hmem
    -- the chain behind the second occurrence is the chain behind the first
    have hsecond := (append_iff.1 hrest).2
    have := congrArg List.length (tail_unique h hsecond)
    simp at this
    omega

theorem length_le (h : s.Linked prev ids none) : ids.length ≤ s.cells.size :=
  length_le_size h.nodup h.has

/-- The links lead through a chain and on to what is behind it. -/
theorem chain_append (h : s.Linked prev ids stop) (n : Nat) :
    s.chain (ids.length + n) (ids.head?.or stop) = ids ++ s.chain n stop := by
  induction ids generalizing prev with
  | nil => rw [List.length_nil, Nat.zero_add, List.head?_nil, Option.none_or, List.nil_append]
  | cons id ids ih =>
    obtain ⟨-, -, hnext, hrest⟩ := h
    rw [List.length_cons, Nat.add_right_comm, List.head?_cons, Option.some_or, chain, hnext,
      ih hrest, List.cons_append]

/-- The links lead through the whole chain. -/
theorem chain_eq (h : s.Linked prev ids none) {n : Nat} (hn : ids.length ≤ n) :
    s.chain n ids.head? = ids := by
  obtain ⟨n, rfl⟩ := Nat.exists_eq_add_of_le hn
  have := h.chain_append n
  rwa [Option.or_none, show s.chain n none = [] by cases n <;> rfl, List.append_nil] at this

theorem singleton_iff :
    s.Linked prev [id] stop ↔ s.Has id ∧ s.prev? id = prev ∧ s.next? id = stop := by
  constructor
  · intro h
    obtain ⟨hhas, hprev, hnext, -⟩ := h
    exact ⟨hhas, hprev, hnext⟩
  · intro h
    obtain ⟨hhas, hprev, hnext⟩ := h
    exact ⟨hhas, hprev, hnext, trivial⟩

/-- A node that stands alone is linked behind the last one of a chain. -/
theorem link {last : NodeId} (h : s.Linked prev (xs ++ [last]) none) (hid : s.Linked none [id] none)
    (hnot : id ∉ xs ++ [last]) : (s.link last id).Linked prev (xs ++ [last] ++ [id]) none := by
  have hlast : last ∉ xs := by
    intro hmem
    exact (List.nodup_append.1 h.nodup).2.2 last hmem last List.mem_cons_self rfl
  have hxs_id : id ∉ xs := fun hmem => hnot (List.mem_append_left _ hmem)
  have hne : id ≠ last := by
    intro heq
    subst heq
    exact hnot (List.mem_append_right _ List.mem_cons_self)
  obtain ⟨hxs, hend⟩ := append_iff.1 h
  obtain ⟨hhas, hprev, -⟩ := singleton_iff.1 hend
  obtain ⟨hhas_id, -, hnext_id⟩ := singleton_iff.1 hid
  have hxs' : (s.link last id).Linked prev xs (some last) := by
    refine hxs.congr (fun i hi => (has_link ..).2 (hxs.has i hi)) (fun i hi => ?_) fun i hi => ?_
    · rw [prev?_link, if_neg]
      intro h
      obtain ⟨rfl, -⟩ := h
      exact hxs_id hi
    · rw [next?_link, if_neg]
      intro h
      obtain ⟨rfl, -⟩ := h
      exact hlast hi
  refine append_iff.2 ⟨append_iff.2 ⟨hxs', singleton_iff.2 ⟨(has_link ..).2 hhas, ?_, ?_⟩⟩,
    singleton_iff.2 ⟨(has_link ..).2 hhas_id, ?_, ?_⟩⟩
  · rw [prev?_link, if_neg fun e => hne e.1]
    exact hprev
  · rw [next?_link, if_pos ⟨rfl, hhas⟩]
    rfl
  · rw [prev?_link, if_pos ⟨rfl, hhas_id⟩]
    simp
  · rw [next?_link, if_neg fun e => hne e.1.symm]
    exact hnext_id

end Linked

theorem children_eq {s : Store} {id : NodeId} {ids : List NodeId} (h : s.Linked none ids none)
    (hchild : s.child? id = ids.head?) : s.children id = ids := by
  rw [children, siblings, hchild, h.chain_eq h.length_le]

end LinkedJson.Store
