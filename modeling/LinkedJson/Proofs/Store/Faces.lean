import LinkedJson.Proofs.Store.Accounts

/-!
# What nodes hold apart from their links

The `Face` of a node is its content without the first child, and its label. Splices and releases
change links only, so they leave every face as it was. New nodes come behind the old ones: building
a tree adds the faces of its nodes in order (`faces_buildTree`), or as many of them as the arena
gave nodes for.
-/

namespace LinkedJson

/-- The content of a node, without a first child, and its label. -/
structure Face where
  content : Content
  label : Label

def Cell.face (c : Cell) : Face :=
  ⟨c.content.withChild none, c.label⟩

namespace Content

@[simp] theorem withChild_withChild (child child' : Option NodeId) (c : Content) :
    (c.withChild child').withChild child = c.withChild child := by
  cases c <;> rfl

@[simp] theorem kind_withChild (child : Option NodeId) (c : Content) :
    (c.withChild child).kind = c.kind := by
  cases c with
  | scalar v => cases v <;> rfl
  | _ => rfl

end Content

namespace Store

variable {s t u : Store} {i id : NodeId}

def face? (s : Store) (id : NodeId) : Option Face :=
  s.cells[id]?.map Cell.face

/-- The faces of all nodes in order. -/
def faces (s : Store) : List Face :=
  s.cells.toList.map Cell.face

/-- What kind of value a node holds, if there is one. -/
def kind? (s : Store) (id : NodeId) : Option Kind :=
  (s.content? id).map Content.kind

/-! ## Reading faces -/

theorem getElem?_faces (s : Store) (i : NodeId) : s.faces[i]? = s.face? i := by
  simp [faces, face?]

theorem length_faces (s : Store) : s.faces.length = s.cells.size := by
  simp [faces]

theorem faces_congr (h : ∀ i, t.face? i = s.face? i) : t.faces = s.faces :=
  List.ext_getElem? fun i => by rw [getElem?_faces, getElem?_faces, h]

theorem face?_eq_none (h : ¬ s.Has i) : s.face? i = none := by
  rw [face?, getElem?_eq_none_of_not_has h]
  rfl

theorem has_of_face? {f : Face} (h : s.face? i = some f) : s.Has i := by
  obtain ⟨c, hc, -⟩ := Option.map_eq_some_iff.1 h
  exact has_iff.2 ⟨c, hc⟩

theorem face?_of_content? {c : Content} (h : s.content? i = some c) :
    s.face? i = some ⟨c.withChild none, s.label i⟩ := by
  obtain ⟨cell, hcell, rfl⟩ := Option.map_eq_some_iff.1 h
  rw [face?, label, hcell]
  rfl

theorem label_eq (s : Store) (i : NodeId) :
    s.label i = ((s.face? i).map Face.label).getD .none := by
  rw [label, face?, Option.map_map]
  rfl

theorem label_congr_face (h : t.face? i = s.face? i) : t.label i = s.label i := by
  rw [label_eq, label_eq, h]

theorem label_of_face? {f : Face} (h : s.face? i = some f) : s.label i = f.label := by
  rw [label_eq, h]
  rfl

theorem kind?_eq (s : Store) (i : NodeId) :
    s.kind? i = (s.face? i).map fun f => f.content.kind := by
  rw [kind?, content?, face?, Option.map_map, Option.map_map]
  congr 1
  funext c
  exact (c.content.kind_withChild none).symm

theorem kind?_congr_face (h : t.face? i = s.face? i) : t.kind? i = s.kind? i := by
  rw [kind?_eq, kind?_eq, h]

/-! ## Splices and releases -/

section

variable (s : Store) (id i : NodeId)

theorem face?_modify {f : Cell → Cell} (h : ∀ c, (f c).face = c.face) :
    (s.modify id f).face? i = s.face? i := by
  rw [face?, getElem?_modify, face?]
  split
  · rw [Option.map_map]
    congr 1
    funext c
    exact h c
  · rfl

@[simp] theorem face?_setNext (next : Option NodeId) : (s.setNext id next).face? i = s.face? i :=
  face?_modify _ _ _ fun _ => rfl

@[simp] theorem face?_setPrev (prev : Option NodeId) : (s.setPrev id prev).face? i = s.face? i :=
  face?_modify _ _ _ fun _ => rfl

@[simp] theorem face?_setChild (child : Option NodeId) :
    (s.setChild id child).face? i = s.face? i :=
  face?_modify _ _ _ fun c => by simp [Cell.face]

@[simp] theorem face?_clear : (s.clear id).face? i = s.face? i :=
  face?_modify s id i fun c => by simp [Cell.face, Cell.cleared]

theorem face?_setLabel (l : Label) : (s.setLabel id l).face? i =
    if id = i then (s.face? i).map ({ · with label := l }) else s.face? i := by
  rw [face?, setLabel, getElem?_modify, face?]
  split
  · rw [Option.map_map, Option.map_map]
    rfl
  · rfl

theorem face?_adopt (cell : Cell) :
    (s.adopt cell).face? i = if i = s.cells.size then some cell.face else s.face? i := by
  rw [face?, getElem?_adopt, face?]
  split <;> rfl

@[simp] theorem face?_setNextOf (o next : Option NodeId) :
    (s.setNextOf o next).face? i = s.face? i := by
  cases o with
  | none => rfl
  | some id => exact face?_setNext ..

@[simp] theorem face?_setPrevOf (o prev : Option NodeId) :
    (s.setPrevOf o prev).face? i = s.face? i := by
  cases o with
  | none => rfl
  | some id => exact face?_setPrev ..

@[simp] theorem face?_redirect (p : NodeId) (first : Bool) (prev item : Option NodeId) :
    (s.redirect p first prev item).face? i = s.face? i := by
  cases first with
  | true => exact face?_setChild ..
  | false => exact face?_setNextOf ..

@[simp] theorem face?_link (prev next : NodeId) : (s.link prev next).face? i = s.face? i := by
  rw [link, face?_setPrev, face?_setNext]

@[simp] theorem face?_append (p item : NodeId) : (s.append p item).face? i = s.face? i := by
  unfold append
  split
  · exact face?_setChild ..
  · exact face?_link ..

@[simp] theorem face?_insertBefore (p child item : NodeId) :
    (s.insertBefore p child item).face? i = s.face? i := by
  simp only [insertBefore, face?_redirect, face?_setPrev, face?_setNext]

@[simp] theorem face?_unlink (p item : NodeId) : (s.unlink p item).face? i = s.face? i := by
  unfold unlink
  dsimp only
  split <;> simp

@[simp] theorem face?_replace (p child item : NodeId) :
    (s.replace p child item).face? i = s.face? i := by
  simp only [replace, face?_redirect, face?_setPrev, face?_setNext, face?_setPrevOf]

@[simp] theorem face?_releaseTo (n : Nat) (head : Option NodeId) :
    (s.releaseTo n head).face? i = s.face? i := by
  induction n generalizing s head with
  | zero => rfl
  | succ n ih =>
    cases head with
    | none => rfl
    | some id =>
      rw [releaseTo, ih, face?_clear, ih]

@[simp] theorem face?_releaseAll (head : Option NodeId) : (s.releaseAll head).face? i = s.face? i :=
  face?_releaseTo ..

@[simp] theorem face?_release (r : NodeId) : (s.release r).face? i = s.face? i :=
  face?_releaseAll ..

@[simp] theorem face?_push (chain : OpenChain) : (chain.push id s).2.face? i = s.face? i := by
  unfold OpenChain.push
  split
  · rfl
  · exact face?_link ..

end

/-! ## New nodes -/

/-- The faces of new nodes come behind those from before: all of the given ones if the operation
gives a result, and otherwise those at the front. -/
def Wrote {α : Type} (s : Store) (fs : List Face) (r : Option α × Store) : Prop :=
  ∃ made, made <+: fs ∧ r.2.faces = s.faces ++ made ∧ (r.1.isSome = true → made = fs)

theorem faces_adopt (s : Store) (cell : Cell) : (s.adopt cell).faces = s.faces ++ [cell.face] := by
  simp [faces, adopt]

theorem faces_setChild (s : Store) (id : NodeId) (child : Option NodeId) :
    (s.setChild id child).faces = s.faces :=
  faces_congr fun i => face?_setChild s id i child

theorem faces_releaseAll (s : Store) (head : Option NodeId) : (s.releaseAll head).faces = s.faces :=
  faces_congr fun i => face?_releaseAll s i head

theorem faces_push (chain : OpenChain) (id : NodeId) (s : Store) :
    (chain.push id s).2.faces = s.faces :=
  faces_congr fun i => face?_push s id i chain

/-- The label of the last node is changed. -/
theorem faces_setLabel_last {fs : List Face} {f : Face} (h : s.faces = fs ++ [f]) (l : Label)
    (hid : id = fs.length) : (s.setLabel id l).faces = fs ++ [{ f with label := l }] := by
  subst hid
  refine List.ext_getElem? fun i => ?_
  rw [getElem?_faces, face?_setLabel, ← getElem?_faces, h]
  rcases Nat.lt_trichotomy i fs.length with hi | rfl | hi
  · rw [if_neg (Nat.ne_of_gt hi), List.getElem?_append_left hi, List.getElem?_append_left hi]
  · rw [if_pos rfl]
    simp
  · have hend (g : Face) : (fs ++ [g])[i]? = none :=
      List.getElem?_eq_none (by rw [List.length_append]; exact hi)
    rw [if_neg (Nat.ne_of_lt hi), hend, hend]

theorem faces_create? {content : Content} (h : s.create? content = some (id, t)) :
    t.faces = s.faces ++ [⟨content.withChild none, .none⟩] := by
  obtain ⟨-, -, rfl⟩ := create?_eq_some_iff.1 h
  exact faces_adopt ..

theorem wrote_createAs (l : Label) (content : Content) (s : Store) :
    Wrote s [⟨content.withChild none, l⟩] (s.createAs l content) := by
  unfold createAs
  cases h : s.create? content with
  | none => exact ⟨[], List.nil_prefix, (List.append_nil _).symm, fun h => nomatch h⟩
  | some r =>
    obtain ⟨id, t⟩ := r
    have hid : id = s.faces.length := by
      rw [length_faces]
      exact (create?_eq_some_iff.1 h).2.1
    exact ⟨_, List.prefix_rfl, faces_setLabel_last (faces_create? h) l hid, fun _ => rfl⟩

/-- A container is written before its children. -/
theorem wrote_fill {fs : List Face} {f : Face} {build : Store → Option OpenChain × Store}
    (hbuild : ∀ t, Wrote t fs (build t)) {r : Option NodeId × Store} (hr : Wrote s [f] r) :
    Wrote s (f :: fs) (fill build r) := by
  obtain ⟨made, hprefix, hfaces, hall⟩ := hr
  rcases r with ⟨_ | id, t⟩
  · exact ⟨made, hprefix.trans ⟨fs, rfl⟩, hfaces, fun h => nomatch h⟩
  · obtain rfl := hall rfl
    obtain ⟨kids, hkids, hkidFaces, hkidsAll⟩ := hbuild t
    have hboth : (build t).2.faces = s.faces ++ (f :: kids) := by
      rw [hkidFaces, hfaces, List.append_assoc]
      rfl
    rcases hr : build t with ⟨_ | chain, u⟩ <;> rw [hr] at hboth hkidsAll
    · rw [fill_of_refused hr]
      refine ⟨f :: kids, List.cons_prefix_cons.2 ⟨rfl, hkids⟩, ?_, fun h => nomatch h⟩
      exact (faces_releaseAll u (some id)).trans hboth
    · rw [fill_of_built hr]
      refine ⟨f :: kids, List.cons_prefix_cons.2 ⟨rfl, hkids⟩, ?_, fun _ => ?_⟩
      · exact (faces_setChild u id chain.head).trans hboth
      · rw [hkidsAll rfl]

end Store

namespace JsonTree

mutual

/-- The faces of the nodes that a tree is built as, its root first and under the given label. A
reference is built as the value that it shows. -/
def facesAs (l : Label) : JsonTree → List Face
  | scalar _ v => [⟨.scalar v, l⟩]
  | array _ items => ⟨.array none, l⟩ :: facesOf items
  | object _ members => ⟨.object none, l⟩ :: facesOf members
  | reference _ target => target.facesAs l

def facesOf : List JsonTree → List Face
  | [] => []
  | t :: ts => t.facesAs t.label ++ facesOf ts

end

theorem facesOf_scalars (l : Label) (values : List Scalar) :
    facesOf (values.map (.scalar l)) = values.map fun v => ⟨.scalar v, l⟩ := by
  induction values with
  | nil => rfl
  | cons v values ih =>
    rw [List.map_cons, facesOf, ih]
    rfl

end JsonTree

namespace Store

variable {s t : Store}

mutual

theorem wrote_buildTree (l : Label) : ∀ (t : JsonTree) (s : Store),
    Wrote s (t.facesAs l) (buildTree l t s)
  | .scalar _ v, s => by
    rw [buildTree]
    exact wrote_createAs l (.scalar v) s
  | .array _ items, s => by
    rw [buildTree]
    exact wrote_fill (fun t => wrote_buildSiblings items .empty t)
      (wrote_createAs l (.array none) s)
  | .object _ members, s => by
    rw [buildTree]
    exact wrote_fill (fun t => wrote_buildSiblings members .empty t)
      (wrote_createAs l (.object none) s)
  | .reference _ target, s => by
    rw [buildTree]
    exact wrote_buildTree l target s

theorem wrote_buildSiblings : ∀ (ts : List JsonTree) (chain : OpenChain) (s : Store),
    Wrote s (JsonTree.facesOf ts) (buildSiblings ts chain s)
  | [], chain, s => by
    rw [buildSiblings]
    exact ⟨[], List.nil_prefix, (List.append_nil _).symm, fun _ => rfl⟩
  | t :: ts, chain, s => by
    obtain ⟨made, hprefix, hfaces, hall⟩ := wrote_buildTree t.label t s
    rw [buildSiblings, JsonTree.facesOf]
    rcases hr : buildTree t.label t s with ⟨_ | id, u⟩ <;> rw [hr] at hfaces hall
    · refine ⟨made, hprefix.trans (List.prefix_append ..), ?_, fun h => nomatch h⟩
      exact (faces_releaseAll u chain.head).trans hfaces
    · obtain rfl := hall rfl
      have hpush : (chain.push id u).2.faces = s.faces ++ t.facesAs t.label :=
        (faces_push chain id u).trans hfaces
      obtain ⟨more, hmore, hmoreFaces, hmoreAll⟩ :=
        wrote_buildSiblings ts (chain.push id u).1 (chain.push id u).2
      refine ⟨t.facesAs t.label ++ more, (List.prefix_append_right_inj _).2 hmore, ?_, fun h => ?_⟩
      · rw [← List.append_assoc, ← hpush]
        exact hmoreFaces
      · rw [hmoreAll h]

end

/-- The items of an array of values are written before the array. -/
theorem wrote_createArrayOf (values : List Scalar) (s : Store) :
    Wrote s ((values.map fun v => ⟨.scalar v, .none⟩) ++ [⟨.array none, .none⟩])
      (s.createArrayOf values) := by
  obtain ⟨made, hprefix, hfaces, hall⟩ :=
    wrote_buildSiblings (values.map (.scalar .none)) .empty s
  rw [JsonTree.facesOf_scalars] at hprefix hall
  unfold createArrayOf
  rcases hr : buildSiblings (values.map (.scalar .none)) .empty s with ⟨_ | chain, t⟩ <;>
    rw [hr] at hfaces hall
  · exact ⟨made, hprefix.trans (List.prefix_append ..), hfaces, fun h => nomatch h⟩
  · obtain rfl := hall rfl
    dsimp only
    cases hcreate : t.create? (.array chain.head) with
    | none =>
      refine ⟨_, List.prefix_append .., ?_, fun h => nomatch h⟩
      exact (faces_releaseAll t chain.head).trans hfaces
    | some r =>
      obtain ⟨id, u⟩ := r
      refine ⟨_, List.prefix_rfl, ?_, fun _ => rfl⟩
      show u.faces = _
      rw [faces_create? hcreate, hfaces, List.append_assoc]
      rfl

end Store

end LinkedJson
