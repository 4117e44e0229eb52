import LinkedJson.Store.Basic

/-!
# What writes do to the links

Each write of a cell changes one link of one node and nothing else.
-/

namespace LinkedJson.Store

/-- The number of a cell of the store. -/
def Has (s : Store) (id : NodeId) : Prop :=
  id < s.cells.size

instance (s : Store) (id : NodeId) : Decidable (s.Has id) :=
  inferInstanceAs (Decidable (_ < _))

theorem getElem?_eq_none_of_not_has {s : Store} {id : NodeId} (h : ¬ s.Has id) :
    s.cells[id]? = none :=
  Array.getElem?_eq_none (Nat.le_of_not_lt h)

section Modify

variable (s : Store) (id i : NodeId)

@[simp] theorem has_modify (f : Cell → Cell) : (s.modify id f).Has i ↔ s.Has i := by
  simp [Has]

theorem next?_setNext (next : Option NodeId) :
    (s.setNext id next).next? i = if id = i ∧ s.Has i then next else s.next? i := by
  rw [next?, setNext, getElem?_modify, next?]
  by_cases h : s.Has i
  · obtain ⟨c, hc⟩ : ∃ c, s.cells[i]? = some c := ⟨_, Array.getElem?_eq_getElem h⟩
    by_cases e : id = i <;> simp [hc, e, h]
  · simp [getElem?_eq_none_of_not_has h, h]

theorem prev?_setPrev (prev : Option NodeId) :
    (s.setPrev id prev).prev? i = if id = i ∧ s.Has i then prev else s.prev? i := by
  rw [prev?, setPrev, getElem?_modify, prev?]
  by_cases h : s.Has i
  · obtain ⟨c, hc⟩ : ∃ c, s.cells[i]? = some c := ⟨_, Array.getElem?_eq_getElem h⟩
    by_cases e : id = i <;> simp [hc, e, h]
  · simp [getElem?_eq_none_of_not_has h, h]

theorem label_setLabel (l : Label) :
    (s.setLabel id l).label i = if id = i ∧ s.Has i then l else s.label i := by
  rw [label, setLabel, getElem?_modify, label]
  by_cases h : s.Has i
  · obtain ⟨c, hc⟩ : ∃ c, s.cells[i]? = some c := ⟨_, Array.getElem?_eq_getElem h⟩
    by_cases e : id = i <;> simp [hc, e, h]
  · simp [getElem?_eq_none_of_not_has h, h]

theorem content?_setChild (child : Option NodeId) :
    (s.setChild id child).content? i =
      if id = i then (s.content? i).map (Content.withChild child) else s.content? i := by
  rw [content?, setChild, getElem?_modify, content?]
  by_cases e : id = i <;> simp [e, Function.comp_def]

/-- A change that keeps the next sibling of every cell keeps it in the store. -/
theorem next?_modify {f : Cell → Cell} (h : ∀ c, (f c).next = c.next) :
    (s.modify id f).next? i = s.next? i := by
  rw [next?, getElem?_modify, next?]
  cases s.cells[i]? <;> by_cases e : id = i <;> simp [e, h]

theorem prev?_modify {f : Cell → Cell} (h : ∀ c, (f c).prev = c.prev) :
    (s.modify id f).prev? i = s.prev? i := by
  rw [prev?, getElem?_modify, prev?]
  cases s.cells[i]? <;> by_cases e : id = i <;> simp [e, h]

theorem content?_modify {f : Cell → Cell} (h : ∀ c, (f c).content = c.content) :
    (s.modify id f).content? i = s.content? i := by
  rw [content?, getElem?_modify, content?]
  cases s.cells[i]? <;> by_cases e : id = i <;> simp [e, h]

theorem label_modify {f : Cell → Cell} (h : ∀ c, (f c).label = c.label) :
    (s.modify id f).label i = s.label i := by
  rw [label, getElem?_modify, label]
  cases s.cells[i]? <;> by_cases e : id = i <;> simp [e, h]

@[simp] theorem next?_setPrev (prev : Option NodeId) : (s.setPrev id prev).next? i = s.next? i :=
  next?_modify _ _ _ fun _ => rfl

@[simp] theorem next?_setChild (child : Option NodeId) :
    (s.setChild id child).next? i = s.next? i :=
  next?_modify _ _ _ fun _ => rfl

@[simp] theorem next?_setLabel (l : Label) : (s.setLabel id l).next? i = s.next? i :=
  next?_modify _ _ _ fun _ => rfl

@[simp] theorem prev?_setNext (next : Option NodeId) : (s.setNext id next).prev? i = s.prev? i :=
  prev?_modify _ _ _ fun _ => rfl

@[simp] theorem prev?_setChild (child : Option NodeId) :
    (s.setChild id child).prev? i = s.prev? i :=
  prev?_modify _ _ _ fun _ => rfl

@[simp] theorem prev?_setLabel (l : Label) : (s.setLabel id l).prev? i = s.prev? i :=
  prev?_modify _ _ _ fun _ => rfl

@[simp] theorem content?_setNext (next : Option NodeId) :
    (s.setNext id next).content? i = s.content? i :=
  content?_modify _ _ _ fun _ => rfl

@[simp] theorem content?_setPrev (prev : Option NodeId) :
    (s.setPrev id prev).content? i = s.content? i :=
  content?_modify _ _ _ fun _ => rfl

@[simp] theorem content?_setLabel (l : Label) : (s.setLabel id l).content? i = s.content? i :=
  content?_modify _ _ _ fun _ => rfl

@[simp] theorem label_setNext (next : Option NodeId) : (s.setNext id next).label i = s.label i :=
  label_modify _ _ _ fun _ => rfl

@[simp] theorem label_setPrev (prev : Option NodeId) : (s.setPrev id prev).label i = s.label i :=
  label_modify _ _ _ fun _ => rfl

@[simp] theorem label_setChild (child : Option NodeId) :
    (s.setChild id child).label i = s.label i :=
  label_modify _ _ _ fun _ => rfl

end Modify

end LinkedJson.Store
