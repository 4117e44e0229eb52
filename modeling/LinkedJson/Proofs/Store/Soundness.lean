import LinkedJson.Proofs.Reading.Mirrored
import LinkedJson.Proofs.Store.Shown

/-!
# Sound nodes

A store is `Sound` if all children are named as their parent asks, the integer of every number
mirrors its double, and every reference refers to a node that is no reference. The kinds of change
that an operation consists of keep it sound: an item gets a label and a place (`Put`), children
leave (`Sound.shrink`), and new nodes come (`Sound.grown`).

What the nodes of a document hold is told step by step, by the laws of a builder (`fresh_read`).
-/

namespace LinkedJson

/-- Content that names no other node, with the integer of a number as the 32-bit view of its
double. -/
def Content.Plain : Content → Prop
  | .scalar v => v.Mirrored
  | .reference _ => False
  | .array _ | .object _ => True

theorem Content.kind_ne_reference {c : Content} (h : ∀ target, c ≠ .reference target) :
    c.kind ≠ .reference := by
  cases c with
  | scalar v => cases v <;> simp [kind]
  | array _ | object _ => simp [kind]
  | reference target => exact absurd rfl (h target)

namespace Store

variable {s t u : Store} {i p q id item child : NodeId} {l : Label} {content : Content}

/-- Content as it may stand in a store: plain, or a reference to a node that is no reference. -/
def Admits (s : Store) : Content → Prop
  | .scalar v => v.Mirrored
  | .reference target => ∃ k, s.kind? target = some k ∧ k ≠ .reference
  | .array _ | .object _ => True

structure Sound (s : Store) : Prop where
  named : ∀ p, s.NamesChildren p
  admits : ∀ i f, s.face? i = some f → s.Admits f.content

theorem Admits.of_plain (h : content.Plain) : s.Admits content := by
  cases content with
  | reference target => exact h.elim
  | _ => exact h

theorem Admits.mono (h : s.Admits content)
    (hkind : ∀ i k, s.kind? i = some k → t.kind? i = some k) : t.Admits content := by
  cases content with
  | reference target =>
    obtain ⟨k, hk, hne⟩ := h
    exact ⟨k, hkind target k hk, hne⟩
  | _ => exact h

theorem admits_withChild (child : Option NodeId) :
    s.Admits (content.withChild child) ↔ s.Admits content := by
  cases content <;> rfl

/-- What the contents of a store tell of its faces. -/
theorem admits_of_content? (h : ∀ i content, s.content? i = some content → s.Admits content) :
    ∀ i f, s.face? i = some f → s.Admits f.content := by
  intro i f hf
  obtain ⟨cell, hcell, rfl⟩ := Option.map_eq_some_iff.1 hf
  exact (admits_withChild none).2 (h i cell.content (by rw [content?, hcell]; rfl))

namespace Sound

theorem admits_content (h : s.Sound) (hcontent : s.content? i = some content) : s.Admits content :=
  (admits_withChild none).1 (h.admits i _ (face?_of_content? hcontent))

theorem mirrored (h : s.Sound) {n : Number} (hcontent : s.content? i = some (.scalar (.number n))) :
    n.integer = n.value.toInt32 :=
  h.admits_content hcontent

theorem targets (h : s.Sound) : s.PlainTargets :=
  fun _ _ hcontent => h.admits_content hcontent

theorem empty (arena : Option Arena) : (Store.empty arena).Sound where
  named p := by
    have hnot : ¬ (Store.empty arena).Has p := Nat.not_lt_zero p
    exact namesChildren_of_children_eq_nil (bare_of_not_has hnot).children_eq_nil
  admits i f h := absurd (has_of_face? h) (Nat.not_lt_zero i)

/-! ## Changes of links -/

theorem admits_of_face? (h : s.Sound) (hface : ∀ i, t.face? i = s.face? i) :
    ∀ i f, t.face? i = some f → t.Admits f.content := by
  intro i f hf
  rw [hface] at hf
  exact (h.admits i f hf).mono fun i k hk => (kind?_congr_face (hface i)).trans hk

/-- Children leave. -/
theorem shrink (h : s.Sound) (hface : ∀ i, t.face? i = s.face? i)
    (hsub : ∀ p, t.children p ⊆ s.children p) : t.Sound where
  named p := (h.named p).of_subset (kind?_congr_face (hface p)) (hsub p) fun i _ =>
    label_congr_face (hface i)
  admits := h.admits_of_face? hface

end Sound

/-! ## New nodes -/

/-- The nodes from before keep what they hold, and what new ones hold is as `P` tells. -/
structure Adds (s t : Store) (P : NodeId → Face → Prop) : Prop where
  old : ∀ {i}, s.Has i → t.face? i = s.face? i
  new : ∀ {i f}, ¬ s.Has i → t.face? i = some f → P i f

theorem has_iff_face? : s.Has i ↔ ∃ f, s.face? i = some f := by
  refine ⟨fun h => ?_, fun h => has_of_face? h.choose_spec⟩
  obtain ⟨cell, hcell⟩ := has_iff.1 h
  exact ⟨cell.face, by rw [face?, hcell]; rfl⟩

namespace Adds

variable {P Q : NodeId → Face → Prop}

theorem refl (s : Store) : Adds s s P where
  old _ := rfl
  new hi hf := absurd (has_of_face? hf) hi

theorem mono (h : Adds s t P) (hPQ : ∀ i f, P i f → Q i f) : Adds s t Q where
  old := h.old
  new hi hf := hPQ _ _ (h.new hi hf)

theorem has (h : Adds s t P) (hi : s.Has i) : t.Has i := by
  rw [has_iff_face?, h.old hi]
  exact has_iff_face?.1 hi

theorem trans (h : Adds s t P) (h' : Adds t u P) : Adds s u P where
  old hi := (h'.old (h.has hi)).trans (h.old hi)
  new {i f} hi hf := by
    by_cases ht : t.Has i
    · rw [h'.old ht] at hf
      exact h.new hi hf
    · exact h'.new ht hf

/-- Changes of links do not count. -/
theorem of_face? (h : Adds s t P) (hface : ∀ i, u.face? i = t.face? i) : Adds s u P where
  old hi := (hface _).trans (h.old hi)
  new hi hf := h.new hi ((hface _).symm.trans hf)

theorem setLabel (h : Adds s t P) (hid : ¬ s.Has id) (l : Label)
    (hP : ∀ f, P id f → P id { f with label := l }) : Adds s (t.setLabel id l) P where
  old {i} hi := by
    rw [face?_setLabel, if_neg, h.old hi]
    intro heq
    exact hid (heq ▸ hi)
  new {i f} hi hf := by
    rw [face?_setLabel] at hf
    split at hf
    · rename_i heq
      obtain ⟨g, hg, rfl⟩ := Option.map_eq_some_iff.1 hf
      rw [← heq] at hg ⊢
      exact hP g (h.new hid hg)
    · exact h.new hi hf

theorem kind? (h : Adds s t P) {k : Kind} (hk : s.kind? i = some k) : t.kind? i = some k := by
  obtain ⟨content, hcontent, -⟩ := exists_content?_of_kind? hk
  exact (kind?_congr_face (h.old (has_of_content? hcontent))).trans hk

theorem label (h : Adds s t P) (hi : s.Has i) : t.label i = s.label i :=
  label_congr_face (h.old hi)

/-- A store stays sound if new children are named and new content fits the nodes from before. -/
theorem sound (h : Adds s t P) (hs : s.Sound) (hnamed : ∀ p, t.NamesChildren p)
    (hP : ∀ i f, P i f → s.Admits f.content) : t.Sound where
  named := hnamed
  admits i f hf := by
    by_cases hi : s.Has i
    · rw [h.old hi] at hf
      exact (hs.admits i f hf).mono fun _ _ => h.kind?
    · exact (hP i f (h.new hi hf)).mono fun _ _ => h.kind?

end Adds

/-- The new nodes are numbered in the order in which they were written. -/
theorem Wrote.adds {α : Type} {fs : List Face} {r : Option α × Store} (h : Wrote s fs r) :
    Adds s r.2 fun i f => ∃ k, i = s.cells.size + k ∧ fs[k]? = some f := by
  obtain ⟨made, hprefix, hfaces, -⟩ := h
  have hget (i : NodeId) : r.2.face? i = (s.faces ++ made)[i]? := by
    rw [← getElem?_faces, hfaces]
  constructor
  · intro i hi
    rw [hget, List.getElem?_append_left (length_faces s ▸ hi), getElem?_faces]
  · intro i f hi hf
    have hle : s.cells.size ≤ i := Nat.le_of_not_lt hi
    rw [hget, List.getElem?_append_right (length_faces s ▸ hle), length_faces] at hf
    obtain ⟨hlt, hmade⟩ := List.getElem?_eq_some_iff.1 hf
    refine ⟨i - s.cells.size, (Nat.add_sub_cancel' hle).symm, ?_⟩
    obtain ⟨rest, rfl⟩ := hprefix
    rw [List.getElem?_append_left hlt]
    exact hf

/-- A face that may stand in the store, under a name that is not lent. -/
def Unlent (s : Store) (f : Face) : Prop :=
  s.Admits f.content ∧ f.label.ownership = .owned

theorem adds_create? (hcreate : s.create? content = some (id, t)) :
    Adds s t fun _ f => f = ⟨content.withChild none, .none⟩ := by
  obtain ⟨-, -, rfl⟩ := create?_eq_some_iff.1 hcreate
  constructor
  · intro i hi
    rw [face?_adopt, if_neg (Nat.ne_of_lt hi)]
  · intro i f hi hf
    rw [face?_adopt] at hf
    split at hf
    · exact (Option.some.inj hf).symm
    · exact absurd (has_of_face? hf) hi

theorem Sound.create (hs : s.Sound) (h : s.WellLinked) (hchild : content.child? = none)
    (hcontent : s.Admits content) (hcreate : s.create? content = some (id, t)) : t.Sound := by
  have g := grown_create? hchild hcreate
  have hadds := adds_create? hcreate
  refine hadds.sound hs (g.namesChildren h hs.named fun p hp => ?_) fun i f hf => ?_
  · rw [List.mem_singleton.1 hp]
    obtain ⟨-, rfl, rfl⟩ := create?_eq_some_iff.1 hcreate
    refine namesChildren_of_children_eq_nil (children_eq_nil_of_child? ?_)
    rw [child?, content?, getElem?_adopt, if_pos rfl]
    exact hchild
  · rw [hf]
    exact (admits_withChild none).2 hcontent

/-- A new reference refers to what its target shows. -/
theorem Sound.admits_reference (hs : s.Sound) {target : NodeId} (htarget : s.Has target) :
    s.Admits (.reference (s.resolve target)) := by
  obtain ⟨content, hcontent⟩ := exists_content?_of_has htarget
  cases content with
  | reference final =>
    rw [resolve_of_reference hcontent]
    exact hs.targets target final hcontent
  | _ =>
    rw [resolve_of_plain hcontent (by simp)]
    exact ⟨_, by rw [kind?, hcontent]; rfl, Content.kind_ne_reference (by simp)⟩

theorem adds_createArrayOf (values : List Scalar) (hvalues : ∀ v ∈ values, v.Mirrored) (s : Store) :
    Adds s (s.createArrayOf values).2 fun _ f => s.Unlent f := by
  refine (wrote_createArrayOf values s).adds.mono fun i f hf => ?_
  obtain ⟨k, -, hk⟩ := hf
  rcases List.mem_append.1 (List.mem_of_getElem? hk) with hf | hf
  · obtain ⟨v, hv, rfl⟩ := List.mem_map.1 hf
    exact ⟨hvalues v hv, rfl⟩
  · rw [List.mem_singleton.1 hf]
    exact ⟨trivial, rfl⟩

theorem Sound.createArrayOf (hs : s.Sound) (h : s.WellLinked) {values : List Scalar}
    (hvalues : ∀ v ∈ values, v.Mirrored) : (s.createArrayOf values).2.Sound :=
  (adds_createArrayOf values hvalues s).sound hs (namesChildren_createArrayOf values h hs.named)
    fun _ _ hf => hf.1

/-- A copy holds what the nodes that it shows hold, and has their labels. -/
theorem adds_duplicate (hs : s.Sound) (h : s.WellLinked) (hid : s.Has id) {deep : Bool}
    (hacc : deep = true → Acc s.Under id) :
    Adds s (s.duplicate deep id).2 fun i f =>
      ∃ k j, i = s.cells.size + k ∧ (s.copied deep id)[k]? = some j ∧ s.copyFace? j = some f := by
  refine (wrote_buildTree _ _ s).adds.mono fun i f hf => ?_
  obtain ⟨k, rfl, hk⟩ := hf
  have hfaces := congrArg (·[k]?) (facesAs_copied h hs.targets hid deep hacc)
  simp only [List.getElem?_map, hk, Option.map_some] at hfaces
  obtain ⟨j, hj, hface⟩ := Option.map_eq_some_iff.1 hfaces.symm
  exact ⟨k, j, rfl, hj, hface⟩

theorem Sound.duplicate (hs : s.Sound) (h : s.WellLinked) (hid : s.Has id) {deep : Bool}
    (hacc : deep = true → Acc s.Under id) : (s.duplicate deep id).2.Sound := by
  refine (adds_duplicate hs h hid hacc).sound hs ?_ fun i f hf => ?_
  · exact namesChildren_duplicate deep id h hs.named
      (wellNamed_copied h hs.named hs.targets hid deep hacc)
  · obtain ⟨k, j, -, -, hface⟩ := hf
    obtain ⟨g, hg, rfl⟩ := Option.map_eq_some_iff.1 hface
    exact hs.admits _ g hg

/-- What the nodes of a document hold. -/
def OfDocument (f : Face) : Prop :=
  f.content.Plain ∧ f.label.ownership = .owned

/-- Every step of reading a document adds nodes as a document has them. -/
theorem builder_adds :
    builder.mirrored.Effects (fun s t id => (Adds s t fun _ f => OfDocument f) ∧ ¬ s.Has id)
      (fun s t _ => Adds s t fun _ f => OfDocument f)
      (fun s t => Adds s t fun _ f => OfDocument f) := by
  have created : ∀ {s t u : Store} {content : Content} {id : NodeId},
      (Adds s t fun _ f => OfDocument f) → content.Plain → t.create? content = some (id, u) →
      (Adds s u fun _ f => OfDocument f) ∧ ¬ s.Has id := by
    intro s t u content id h hplain hcreate
    have hface : OfDocument ⟨content.withChild none, .none⟩ := by
      cases content <;> exact ⟨hplain, rfl⟩
    refine ⟨h.trans ((adds_create? hcreate).mono fun i f hf => hf ▸ hface), fun hid => ?_⟩
    obtain ⟨-, rfl, -⟩ := create?_eq_some_iff.1 hcreate
    exact Nat.lt_irrefl _ (h.has hid)
  constructor
  · exact fun s => .refl s
  · intro v s id t h
    change (if v.Mirrored then s.create? (.scalar v) else none) = some (id, t) at h
    split at h
    · rename_i hmirrored
      refine created (.refl s) ?_ h
      exact hmirrored
    · cases h
  · exact fun s => .refl s
  · intro s t u chain id h h'
    exact (h.trans h'.1).of_face? fun i => face?_push u id i chain
  · intro s t id name h
    exact ⟨h.1.setLabel h.2 _ fun f hf => ⟨hf.1, rfl⟩, h.2⟩
  · intro s t chain id u h hcreate
    refine created h ?_ hcreate
    trivial
  · intro s t chain id u h hcreate
    refine created h ?_ hcreate
    trivial
  · intro s t u chain h h'
    exact (h.trans h').of_face? fun i => face?_releaseAll u i chain.head
  · intro s t id h
    exact h.1.of_face? fun i => face?_release t i id

theorem adds_read (options : ReadOptions) (bytes : List UInt8) (s : Store) :
    Adds s (s.read options bytes).2 fun _ f => OfDocument f := by
  have heffect := Builder.read_effect builder_adds options bytes s
  rw [Builder.read_mirrored] at heffect
  rcases hread : s.read options bytes with ⟨e | ⟨root, stop⟩, t⟩
  · exact heffect.2 e t hread
  · exact (heffect.1 root stop t hread).1

theorem Sound.read (hs : s.Sound) (h : s.WellLinked) (options : ReadOptions)
    (bytes : List UInt8) : (s.read options bytes).2.Sound :=
  (adds_read options bytes s).sound hs (namesChildren_read options bytes h hs.named)
    fun _ _ hf => .of_plain hf.1

/-! ## An item gets a label and a place -/

/-- From `s` to `t` the item gets a label and a place among the children of `p`, and otherwise
children at most leave. -/
structure Put (s t : Store) (p item : NodeId) (l : Label) : Prop where
  has : s.Has item
  face : ∀ i, t.face? i = (s.setLabel item l).face? i
  self : ∀ i ∈ t.children p, i ∈ s.children p ∨ i = item
  other : ∀ {q}, q ≠ p → t.children q ⊆ s.children q

namespace Put

theorem kind? (h : Put s t p item l) (i : NodeId) : t.kind? i = s.kind? i := by
  rw [kind?_congr_face (h.face i), Store.kind?, Store.kind?, content?_setLabel]

theorem label (h : Put s t p item l) (i : NodeId) :
    t.label i = if item = i ∧ s.Has i then l else s.label i := by
  rw [label_congr_face (h.face i), label_setLabel]

/-- The item stood alone, so no child has another label than before but the item itself. -/
theorem sound (h : Put s t p item l) (hs : s.Sound) (halone : s.Standalone item)
    (hl : ∀ k, s.kind? p = some k → k.Fits l) : t.Sound where
  named q := by
    intro k hk i hi
    rw [h.kind?] at hk
    have hold : i ∈ s.children q → k.Fits (t.label i) := by
      intro hmem
      have hne : item ≠ i := by
        intro heq
        exact halone q (heq ▸ hmem)
      rw [h.label, if_neg fun h => hne h.1]
      exact hs.named q k hk i hmem
    by_cases hq : q = p
    · subst hq
      rcases h.self i hi with hmem | rfl
      · exact hold hmem
      · rw [h.label, if_pos ⟨rfl, h.has⟩]
        exact hl k hk
    · exact hold (h.other hq hi)
  admits i f hf := by
    have hkind : ∀ i k, s.kind? i = some k → t.kind? i = some k :=
      fun i k hk => (h.kind? i).trans hk
    rw [h.face, face?_setLabel] at hf
    split at hf
    · obtain ⟨g, hg, rfl⟩ := Option.map_eq_some_iff.1 hf
      exact (hs.admits i g hg).mono hkind
    · exact (hs.admits i f hf).mono hkind

end Put

theorem WellLinked.release_subset (h : s.WellLinked) (hhas : s.Has id) (halone : s.Standalone id)
    (p : NodeId) : (s.release id).children p ⊆ s.children p := by
  have hreleased := h.release hhas halone
  by_cases hp : s.Below p id
  · rw [(hreleased.bare hp).children_eq_nil]
    exact List.nil_subset _
  · rw [hreleased.kept hp]
    exact List.Subset.refl _

section

variable {e : Edit}

/-- A child that has left its list is nobody's child. -/
theorem Edited.standalone_removed (hedited : s.Edited t p (e.apply (s.children p)))
    (h : s.WellLinked) (hchild : child ∈ s.children p) (hremoved : e.removed? = some child)
    (hitem : ∀ item, e = .replace child item → item ≠ child) : t.Standalone child := by
  intro q hq
  by_cases hqp : q = p
  · subst hqp
    rw [hedited.children_self] at hq
    exact h.not_mem_of_removed hchild hremoved hitem hq
  · rw [hedited.children_other h hqp] at hq
    exact hqp (h.single hq hchild)

/-- When it is released, other children at most leave. -/
theorem Edited.release_subset (hedited : s.Edited t p (e.apply (s.children p)))
    (h : s.WellLinked) (hchild : child ∈ s.children p) (hremoved : e.removed? = some child)
    (hitem : ∀ item, e = .replace child item → item ≠ child) (q : NodeId) :
    (t.release child).children q ⊆ t.children q :=
  (hedited.wellLinked h).release_subset (hedited.has (h.has_of_mem hchild))
    (hedited.standalone_removed h hchild hremoved hitem) q

/-- A labelled item that enters a list is put there. -/
theorem Edited.put (hedited : (s.setLabel item l).Edited t p (e.apply (s.children p)))
    (h : s.WellLinked) (hhas : s.Has item) (hentered : e.entered? = some item)
    (hremoved : ∀ i, e.removed? = some i → i ∈ s.children p)
    (hface : ∀ i, t.face? i = (s.setLabel item l).face? i) : Put s t p item l where
  has := hhas
  face := hface
  self i hi := by
    rw [hedited.children_self, Edit.mem_apply (h.linked p).nodup hremoved, hentered] at hi
    exact hi.imp (fun hi => hi.1) fun hi => (Option.some.inj hi).symm
  other {q} hq := by
    have lab := sameLinks_setLabel s item l
    rw [hedited.children_other (lab.wellLinked h) hq, lab.children]
    exact List.Subset.refl _

end

theorem Put.release (hput : Put s t p item l)
    (hsub : ∀ q, (t.release child).children q ⊆ t.children q) :
    Put s (t.release child) p item l where
  has := hput.has
  face i := by rw [face?_release, hput.face]
  self i hi := hput.self i (hsub p hi)
  other hq := fun _ hi => hput.other hq (hsub _ hi)

theorem put_append (h : s.WellLinked) (hitem : s.Insertable p item) (l : Label) :
    Put s ((s.setLabel item l).append p item) p item l := by
  have lab := sameLinks_setLabel s item l
  have hedited := edited_append (lab.wellLinked h) (lab.insertable hitem)
  rw [lab.children] at hedited
  exact hedited.put h hitem.has rfl (fun _ hi => nomatch hi) fun i => face?_append ..

theorem put_insertBefore (h : s.WellLinked) (hitem : s.Insertable p item) (l : Label)
    (hchild : child ∈ s.children p) :
    Put s ((s.setLabel item l).insertBefore p child item) p item l := by
  have lab := sameLinks_setLabel s item l
  have hedited := edited_insertBefore (lab.wellLinked h) (lab.insertable hitem)
    (lab.children p ▸ hchild)
  rw [lab.children] at hedited
  exact hedited.put h hitem.has rfl (fun _ hi => nomatch hi) fun i => face?_insertBefore ..

theorem put_replaceChild (h : s.WellLinked) (hitem : s.Insertable p item) (l : Label)
    (hchild : child ∈ s.children p) :
    Put s ((s.setLabel item l).replaceChild p child item) p item l := by
  have lab := sameLinks_setLabel s item l
  have hchild' : child ∈ (s.setLabel item l).children p := lab.children p ▸ hchild
  have hedited := edited_replace (lab.wellLinked h) (lab.insertable hitem) hchild'
  have hsub := hedited.release_subset (lab.wellLinked h) hchild' rfl fun _ he => by
    cases he
    exact hitem.ne_of_mem hchild
  rw [lab.children] at hedited
  refine (hedited.put h hitem.has rfl (fun i hi => ?_) fun i => face?_replace ..).release hsub
  cases hi
  exact hchild

/-! ## Children leave -/

theorem children_unlink_subset (h : s.WellLinked) (hchild : child ∈ s.children p) (q : NodeId) :
    (s.unlink p child).children q ⊆ s.children q := by
  have hedited := edited_unlink h hchild
  by_cases hq : q = p
  · subst hq
    rw [hedited.children_self]
    exact List.erase_subset
  · rw [hedited.children_other h hq]
    exact List.Subset.refl _

theorem Sound.unlink (hs : s.Sound) (h : s.WellLinked) (hchild : child ∈ s.children p) :
    (s.unlink p child).Sound :=
  hs.shrink (fun _ => face?_unlink ..) (children_unlink_subset h hchild)

theorem Sound.erase (hs : s.Sound) (h : s.WellLinked) (hchild : child ∈ s.children p) :
    ((s.unlink p child).release child).Sound :=
  (hs.unlink h hchild).shrink (fun _ => face?_release ..)
    ((edited_unlink h hchild).release_subset h hchild rfl fun _ he => nomatch he)

theorem Sound.release (hs : s.Sound) (h : s.WellLinked) (hhas : s.Has id)
    (halone : s.Standalone id) : (s.release id).Sound :=
  hs.shrink (fun _ => face?_release ..) (h.release_subset hhas halone)

/-! ## Numbers -/

section

variable (f : Scalar → Scalar)

theorem content?_modifyScalar (id i : NodeId) : (s.modifyScalar id f).content? i =
    if id = i then (s.content? i).map fun
      | .scalar v => .scalar (f v)
      | content => content
    else s.content? i := by
  rw [modifyScalar, content?, getElem?_modify, content?]
  split
  · cases s.cells[i]? with
    | none => rfl
    | some cell =>
      obtain ⟨content, label, next, prev⟩ := cell
      cases content <;> rfl
  · rfl

theorem sameLinks_modifyScalar (s : Store) (id : NodeId) : SameLinks s (s.modifyScalar id f) where
  size := s.size_modify ..
  container i h := by
    obtain ⟨content, hcontent, hcontainer⟩ := h
    refine ⟨content, ?_, hcontainer⟩
    rw [content?_modifyScalar, hcontent]
    cases content with
    | scalar v => cases hcontainer
    | _ => exact ite_self _
  child i := by
    rw [child?, content?_modifyScalar, child?]
    split
    · cases s.content? i with
      | none => rfl
      | some content => cases content <;> rfl
    · rfl
  prev i := by
    refine prev?_modify s id i fun c => ?_
    cases c.content <;> rfl
  next i := by
    refine next?_modify s id i fun c => ?_
    cases c.content <;> rfl

theorem label_modifyScalar (id i : NodeId) : (s.modifyScalar id f).label i = s.label i := by
  refine label_modify s id i fun c => ?_
  cases c.content <;> rfl

end

theorem kind?_setNumber (id i : NodeId) (d : Double) :
    (s.setNumber id d).kind? i = s.kind? i := by
  rw [kind?, setNumber, content?_modifyScalar, kind?]
  split
  · cases s.content? i with
    | none => rfl
    | some content =>
      cases content with
      | scalar v => cases v <;> rfl
      | _ => rfl
  · rfl

theorem sameLinks_setNumber (s : Store) (id : NodeId) (d : Double) :
    SameLinks s (s.setNumber id d) :=
  sameLinks_modifyScalar ..

theorem label_setNumber (id i : NodeId) (d : Double) : (s.setNumber id d).label i = s.label i :=
  label_modifyScalar ..

/-- The integer of a number is set with its double. -/
theorem Sound.setNumber (hs : s.Sound) (id : NodeId) (d : Double) : (s.setNumber id d).Sound where
  named p := by
    have hchildren := (sameLinks_setNumber s id d).children p
    exact (hs.named p).of_subset (kind?_setNumber ..) (fun _ hi => hchildren ▸ hi) fun i _ =>
      label_setNumber ..
  admits := by
    refine admits_of_content? fun i content hcontent => ?_
    have hkind : ∀ i k, s.kind? i = some k → (s.setNumber id d).kind? i = some k :=
      fun i k hk => (kind?_setNumber ..).trans hk
    rw [Store.setNumber, content?_modifyScalar] at hcontent
    split at hcontent
    · obtain ⟨content, hold, rfl⟩ := Option.map_eq_some_iff.1 hcontent
      have hadmits := (hs.admits_content hold).mono hkind
      cases content with
      | scalar v =>
        cases v with
        | number n => exact rfl
        | _ => trivial
      | _ => exact hadmits
    · exact (hs.admits_content hcontent).mono hkind

end Store

end LinkedJson
