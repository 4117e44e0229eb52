import LinkedJson.Proofs.Store.Soundness

/-!
# Members of objects

A name is looked for without regard to the case of the letters A to Z, and the first member that has
it counts (`FirstNamed`). All operations by name mean this member: it is found, through references
too, taken out, erased, or replaced (`members_agree`). What they leave is told as a list operation on
the children (`Effect`), together with what is found by name afterwards.
-/

namespace LinkedJson

/-! ## Names -/

/-- The code of a letter from A to Z becomes that of the small letter; any other code stays. -/
def foldLetter (code : Nat) : Nat :=
  if 0x41 ≤ code ∧ code ≤ 0x5a then code + 0x20 else code

/-- The names are equal but for the case of the letters A to Z. -/
def Alike (a b : WideString) : Prop :=
  a.units.map (fun u => foldLetter u.toNat) = b.units.map fun u => foldLetter u.toNat

instance (a b : WideString) : Decidable (Alike a b) :=
  inferInstanceAs (Decidable (_ = _))

theorem toNat_foldCase (u : UInt16) : (foldCase u).toNat = foldLetter u.toNat := by
  have hcapital : 0x41 ≤ u ∧ u ≤ 0x5a ↔ 0x41 ≤ u.toNat ∧ u.toNat ≤ 0x5a := Iff.rfl
  unfold foldCase foldLetter
  by_cases h : 0x41 ≤ u.toNat ∧ u.toNat ≤ 0x5a
  · have hlt : u.toNat + 0x20 < 2 ^ 16 := by omega
    rw [if_pos (hcapital.2 h), if_pos h, UInt16.toNat_add]
    exact Nat.mod_eq_of_lt hlt
  · rw [if_neg (mt hcapital.1 h), if_neg h]

theorem sameUnits_iff {xs ys : List UInt16} : sameUnits xs ys = true ↔
    xs.map (fun u => foldLetter u.toNat) = ys.map fun u => foldLetter u.toNat := by
  fun_induction sameUnits xs ys with
  | case1 => exact iff_of_true rfl rfl
  | case2 x xs y ys ih =>
    rw [Bool.and_eq_true, beq_iff_eq, ih, ← UInt16.toNat_inj, toNat_foldCase, toNat_foldCase,
      List.map_cons, List.map_cons, List.cons_eq_cons]
  | case3 xs ys hnil hcons =>
    refine iff_of_false Bool.false_ne_true fun h => ?_
    cases xs <;> cases ys
    · exact hnil rfl rfl
    · cases h
    · cases h
    · exact hcons _ _ _ _ rfl rfl

theorem sameName_iff {a b : WideString} : sameName a b = true ↔ Alike a b :=
  sameUnits_iff

namespace Store

variable {s t : Store} {o r i p child item : NodeId} {name name' : WideString}
  {ids front back : List NodeId} {m : Option NodeId} {l : Label} {e : Edit}

/-- The node has a name that is equal to the given one but for case. -/
def Named (s : Store) (name : WideString) (id : NodeId) : Prop :=
  ∃ key, (s.label id).key = some key ∧ Alike key name

/-- The first of the nodes that has the name, if any of them has it. -/
def FirstNamed (s : Store) (name : WideString) (ids : List NodeId) : Option NodeId → Prop
  | none => ∀ i ∈ ids, ¬ s.Named name i
  | some i =>
    ∃ front back, ids = front ++ i :: back ∧ s.Named name i ∧ ∀ j ∈ front, ¬ s.Named name j

/-- Looks through the nodes for a name. -/
def firstNamed? (s : Store) (name : WideString) (ids : List NodeId) : Option NodeId :=
  ids.find? fun id => (s.label id).key.any (sameName · name)

theorem named_iff : (s.label i).key.any (sameName · name) = true ↔ s.Named name i := by
  unfold Named
  cases (s.label i).key with
  | none => simp
  | some key => simp [sameName_iff]

theorem firstNamed_iff : s.FirstNamed name ids m ↔ s.firstNamed? name ids = m := by
  cases m with
  | none =>
    rw [firstNamed?, List.find?_eq_none]
    simp only [named_iff]
    rfl
  | some i =>
    rw [firstNamed?, List.find?_eq_some_iff_append, named_iff]
    simp only [Bool.not_eq_true', ← Bool.not_eq_true, named_iff]
    constructor
    · intro h
      obtain ⟨front, back, hids, hi, hfront⟩ := h
      exact ⟨hi, front, back, hids, hfront⟩
    · intro h
      obtain ⟨hi, front, back, hids, hfront⟩ := h
      exact ⟨front, back, hids, hi, hfront⟩

theorem FirstNamed.mem (h : s.FirstNamed name ids (some i)) : i ∈ ids := by
  obtain ⟨front, back, hids, -⟩ := h
  rw [hids]
  simp

/-- In a list without repetitions nothing in front of the first node with a name has it. -/
theorem FirstNamed.none_before (h : s.FirstNamed name ids (some i)) (hnodup : ids.Nodup)
    (hids : ids = front ++ i :: back) : s.FirstNamed name front none ∧ i ∉ front := by
  obtain ⟨front', back', hids', -, hfront⟩ := h
  obtain ⟨-, hrest, hapart⟩ := List.nodup_append.1 (hids ▸ hnodup)
  have hnot : i ∉ front := fun hmem => hapart i hmem i List.mem_cons_self rfl
  have hback : i ∉ back := (List.nodup_cons.1 hrest).1
  obtain ⟨rfl, -, -⟩ :=
    (List.append_cons_inj_of_notMem hnot hback).1 (hids.symm.trans hids')
  exact ⟨hfront, hnot⟩

theorem firstNamed?_append :
    s.firstNamed? name (front ++ back) = (s.firstNamed? name front).or (s.firstNamed? name back) :=
  List.find?_append

theorem firstNamed?_cons :
    s.firstNamed? name (i :: back) =
      if (s.label i).key.any (sameName · name) then some i else s.firstNamed? name back := by
  rw [firstNamed?, List.find?_cons, firstNamed?]
  cases (s.label i).key.any (sameName · name) <;> rfl

theorem firstNamed?_congr (h : ∀ i ∈ ids, t.label i = s.label i) :
    t.firstNamed? name ids = s.firstNamed? name ids := by
  induction ids with
  | nil => rfl
  | cons i ids ih =>
    rw [firstNamed?_cons, firstNamed?_cons, h i List.mem_cons_self,
      ih fun j hj => h j (List.mem_cons_of_mem i hj)]

/-- A node in whose label the name stands. -/
theorem firstNamed?_cons_of_key (h : (s.label i).key = some name') :
    s.firstNamed? name (i :: back) =
      if Alike name' name then some i else s.firstNamed? name back := by
  have hany : (s.label i).key.any (sameName · name) = true ↔ Alike name' name := by
    rw [h]
    exact sameName_iff
  rw [firstNamed?_cons]
  simp only [hany]

/-! ## Looking through references -/

/-- The node is the object itself or a reference to it. -/
def Shows (s : Store) (r o : NodeId) : Prop :=
  r = o ∨ s.content? r = some (.reference o)

theorem Shows.resolve_eq (hr : s.Shows r o) (ho : s.kind? o = some .object) :
    s.resolve r = o := by
  rcases hr with rfl | hr
  · obtain ⟨content, hcontent, hkind⟩ := exists_content?_of_kind? ho
    refine resolve_of_plain hcontent fun target heq => ?_
    rw [heq] at hkind
    cases hkind
  · exact resolve_of_reference hr

theorem resolve_congr_face (h : t.face? i = s.face? i) : t.resolve i = s.resolve i := by
  have hcontent : (t.content? i).map (Content.withChild none) =
      (s.content? i).map (Content.withChild none) := by
    have hface := congrArg (Option.map Face.content) h
    rw [face?, face?, Option.map_map, Option.map_map] at hface
    rw [content?, content?, Option.map_map, Option.map_map]
    exact hface
  rw [resolve, resolve]
  generalize t.content? i = c at hcontent ⊢
  generalize s.content? i = d at hcontent ⊢
  rcases c with _ | c <;> rcases d with _ | d
  · rfl
  · cases hcontent
  · cases hcontent
  · have hsame := Option.some.inj hcontent
    cases c <;> cases d <;> simp_all [Content.withChild]

theorem Put.resolve_eq (h : Put s t p item l) (i : NodeId) : t.resolve i = s.resolve i := by
  rw [resolve_congr_face (h.face i), resolve, content?_setLabel, resolve]

theorem memberNamed?_of_resolve (hr : s.resolve r = o) (hids : s.children o = ids) :
    s.memberNamed? r name = s.firstNamed? name ids := by
  rw [memberNamed?, hr, childNamed?, hids, firstNamed?]

/-! ## What operations by name leave -/

/-- The arena has lost the node and what hung from it, and no other nodes. -/
structure LiveWithout (s t : Store) (i : NodeId) : Prop where
  arena : ∀ a, s.arena = some a → a.live.Nodup →
    ∃ live : List NodeId, t.arena = some { a with live } ∧ live.Nodup ∧
      ∀ j, j ∈ live ↔ j ∈ a.live ∧ ¬ s.Below j i
  heap : s.arena = none → t.arena = none

/-- A new last member under a name, and whom that belongs to. -/
structure Pushed (s t : Store) (o item : NodeId) (name : WideString) (ownership : Ownership) :
    Prop where
  effect : Effect s t (some (o, .append item)) none
  face : ∀ j, t.face? j = (s.setLabel item ⟨some name, ownership⟩).face? j
  arena : t.arena = s.arena
  /-- What was found before is found as before. -/
  found : ∀ {r name' i}, s.Shows r o → s.memberNamed? r name' = some i →
    t.memberNamed? r name' = some i
  /-- Where nothing was found, the new member is found if it has the name. -/
  missed : ∀ {r name'}, s.Shows r o → s.memberNamed? r name' = none →
    t.memberNamed? r name' = if Alike name name' then some item else none

/-- The member `i`, found under a name, is taken out. -/
structure Detached (s t : Store) (o i : NodeId) (name : WideString) : Prop where
  effect : Effect s t (some (o, .erase i)) none
  face : ∀ j, t.face? j = s.face? j
  arena : t.arena = s.arena
  /-- The next member that has the name is found now. -/
  next : ∀ {r front back}, s.Shows r o → s.children o = front ++ i :: back →
    s.FirstNamed name back (t.memberNamed? r name)

/-- The member `i` is taken out and released. -/
structure Erased (s t : Store) (o i : NodeId) : Prop where
  effect : Effect s t (some (o, .erase i)) (some i)
  face : ∀ j, t.face? j = s.face? j
  live : LiveWithout s t i

/-- Another item stands in the place of the member `i`, under the name as it is spelled, and `i` is
released. -/
structure Replaced (s t : Store) (o i item : NodeId) (name : WideString) : Prop where
  effect : Effect s t (some (o, .replace i item)) (some i)
  label : t.label item = .owned name
  face : ∀ j, t.face? j = (s.setLabel item (.owned name)).face? j
  live : LiveWithout s t i
  found : ∀ {r}, s.Shows r o → t.memberNamed? r name = some item
  /-- Under other names the same members are found as before. -/
  other : ∀ {r name'}, s.Shows r o → ¬ Alike name' name →
    t.memberNamed? r name' = s.memberNamed? r name'

/-- What a child that has left its list takes with it when it is released. -/
theorem liveWithout_release (h : s.WellLinked) (hedited : s.Edited t p (e.apply (s.children p)))
    (harena : t.arena = s.arena) (hchild : child ∈ s.children p)
    (hremoved : e.removed? = some child) (hitem : ∀ item, e = .replace child item → item ≠ child) :
    LiveWithout s (t.release child) child := by
  have halone := hedited.standalone_removed h hchild hremoved hitem
  have hhas := hedited.has (h.has_of_mem hchild)
  refine ⟨fun a ha hnodup => ?_, fun hnone => ?_⟩
  · obtain ⟨live, hlive, hsub, hmem⟩ :=
      (hedited.wellLinked h).live_release hhas halone (harena.trans ha) hnodup
    refine ⟨live, hlive, hnodup.sublist hsub, fun j => ?_⟩
    rw [hmem, hedited.below_iff h (h.not_below_child hchild)]
  · obtain ⟨ns, hrelease, -⟩ := (hedited.wellLinked h).release_eq_clearAll hhas halone
    rw [hrelease, arena_clearAll, harena, hnone]
    rfl

theorem LiveWithout.of_setLabel (h : LiveWithout (s.setLabel item l) t i) : LiveWithout s t i := by
  have lab := sameLinks_setLabel s item l
  refine ⟨fun a ha hnodup => ?_, h.heap⟩
  obtain ⟨live, harena, hlive, hmem⟩ := h.arena a ha hnodup
  refine ⟨live, harena, hlive, fun j => ?_⟩
  rw [hmem, lab.below_iff]

/-! ## The operations -/

theorem pushed_append (h : s.WellLinked) (ho : s.kind? o = some .object)
    (hitem : s.Insertable o item) (name : WideString) (ownership : Ownership) :
    s.Pushed ((s.setLabel item ⟨some name, ownership⟩).append o item) o item name ownership := by
  have heffect := effect_appendAs h hitem ⟨some name, ownership⟩
  have hput := put_append h hitem ⟨some name, ownership⟩
  have harena := arena_append (s.setLabel item ⟨some name, ownership⟩) o item
  generalize (s.setLabel item ⟨some name, ownership⟩).append o item = t at heffect hput harena ⊢
  have hold : ∀ i ∈ s.children o, t.label i = s.label i := by
    intro i hi
    rw [hput.label, if_neg fun hii => hitem.ne_of_mem hi hii.1]
  have hnew : (t.label item).key = some name := by
    rw [hput.label, if_pos ⟨rfl, hitem.has⟩]
  have hlookup : ∀ {r name'}, s.Shows r o → t.memberNamed? r name' =
      (s.memberNamed? r name').or (if Alike name name' then some item else none) := by
    intro r name' hr
    have hresolve := hr.resolve_eq ho
    rw [memberNamed?_of_resolve ((hput.resolve_eq r).trans hresolve) (heffect.edited o _ rfl),
      memberNamed?_of_resolve hresolve rfl, Edit.apply, firstNamed?_append,
      firstNamed?_congr hold, firstNamed?_cons_of_key hnew]
    rfl
  refine ⟨heffect, hput.face, harena, fun hr hfound => ?_, fun hr hnone => ?_⟩
  · rw [hlookup hr, hfound]
    rfl
  · rw [hlookup hr, hnone, Option.none_or]

theorem detached_unlink (h : s.WellLinked) (ho : s.kind? o = some .object)
    (hfirst : s.FirstNamed name (s.children o) (some i)) :
    s.Detached (s.unlink o i) o i name := by
  have hi := hfirst.mem
  have heffect := effect_unlink h hi
  have hface : ∀ j, (s.unlink o i).face? j = s.face? j := fun j => face?_unlink ..
  refine ⟨heffect, hface, arena_unlink s o i, ?_⟩
  intro r front back hr hplace
  obtain ⟨hfront, hnot⟩ := hfirst.none_before (h.linked o).nodup hplace
  have hchildren : (s.unlink o i).children o = front ++ back := by
    rw [heffect.edited o _ rfl, hplace, List.append_cons, Edit.apply_erase hnot, List.append_nil]
  have hlabel : ∀ j ∈ front ++ back, (s.unlink o i).label j = s.label j := fun j _ =>
    label_congr_face (hface j)
  have hresolve : (s.unlink o i).resolve r = o :=
    (resolve_congr_face (hface r)).trans (hr.resolve_eq ho)
  rw [firstNamed_iff, memberNamed?_of_resolve hresolve hchildren, firstNamed?_congr hlabel,
    firstNamed?_append, firstNamed_iff.1 hfront, Option.none_or]

theorem erased_release (h : s.WellLinked) (hi : i ∈ s.children o) :
    s.Erased ((s.unlink o i).release i) o i := by
  have hlive : LiveWithout s ((s.unlink o i).release i) i := by
    refine liveWithout_release h (edited_unlink h hi) (arena_unlink s o i) hi rfl ?_
    intro _ he
    cases he
  have heffect := effect_erase h hi
  have hface : ∀ j, ((s.unlink o i).release i).face? j = s.face? j := by
    intro j
    rw [face?_release, face?_unlink]
  exact ⟨heffect, hface, hlive⟩

theorem liveWithout_replaceChild (h : s.WellLinked) (hitem : s.Insertable o item) (l : Label)
    (hi : i ∈ s.children o) :
    LiveWithout s ((s.setLabel item l).replaceChild o i item) i := by
  have lab := sameLinks_setLabel s item l
  have hi' : i ∈ (s.setLabel item l).children o := by
    rw [lab.children]
    exact hi
  have hedited := edited_replace (lab.wellLinked h) (lab.insertable hitem) hi'
  refine (liveWithout_release (lab.wellLinked h) hedited (arena_replace ..) hi' rfl ?_).of_setLabel
  intro _ he
  cases he
  exact hitem.ne_of_mem hi

theorem replaced_replaceChild (h : s.WellLinked) (ho : s.kind? o = some .object)
    (hitem : s.Insertable o item) (hfirst : s.FirstNamed name (s.children o) (some i)) :
    s.Replaced ((s.setLabel item (.owned name)).replaceChild o i item) o i item name := by
  have hi := hfirst.mem
  have heffect := effect_replaceChildAs h hitem hi (.owned name)
  have hput := put_replaceChild h hitem (.owned name) hi
  have hlive := liveWithout_replaceChild h hitem (.owned name) hi
  generalize (s.setLabel item (.owned name)).replaceChild o i item = t at heffect hput hlive ⊢
  obtain ⟨front, back, hplace, ⟨key, hkey, halike⟩, -⟩ := id hfirst
  obtain ⟨hfront, hnot⟩ := hfirst.none_before (h.linked o).nodup hplace
  have hchildren : t.children o = front ++ item :: back := by
    rw [heffect.edited o _ rfl, hplace, List.append_cons, Edit.apply_replace hnot, ← List.append_cons]
  have hold : ∀ j ∈ s.children o, t.label j = s.label j := by
    intro j hj
    rw [hput.label, if_neg fun hij => hitem.ne_of_mem hj hij.1]
  have hnew : t.label item = .owned name := by
    rw [hput.label, if_pos ⟨rfl, hitem.has⟩]
  have hold_front : ∀ j ∈ front, t.label j = s.label j := fun j hj =>
    hold j (hplace ▸ List.mem_append_left _ hj)
  have hold_back : ∀ j ∈ back, t.label j = s.label j := fun j hj =>
    hold j (hplace ▸ List.mem_append_right _ (List.mem_cons_of_mem _ hj))
  have hlookup : ∀ {r name'}, s.Shows r o → t.memberNamed? r name' =
      (s.firstNamed? name' front).or
        (if Alike name name' then some item else s.firstNamed? name' back) := by
    intro r name' hr
    rw [memberNamed?_of_resolve ((hput.resolve_eq r).trans (hr.resolve_eq ho)) hchildren,
      firstNamed?_append, firstNamed?_congr hold_front,
      firstNamed?_cons_of_key (congrArg Label.key hnew), firstNamed?_congr hold_back]
  refine ⟨heffect, hnew, hput.face, hlive, fun hr => ?_, fun hr hother => ?_⟩
  · rw [hlookup hr, firstNamed_iff.1 hfront, Option.none_or]
    exact if_pos rfl
  · have hnew_other : ¬ Alike name _ := fun hsame => hother hsame.symm
    have hkey_other : ¬ Alike key _ := fun hsame => hother (hsame.symm.trans halike)
    rw [hlookup hr, memberNamed?_of_resolve (hr.resolve_eq ho) hplace, firstNamed?_append,
      firstNamed?_cons_of_key hkey, if_neg hnew_other, if_neg hkey_other]

/-! ## One member for all operations -/

/-- **All operations by name mean one member.** It is the first child whose name is the given one but
for the case of the letters A to Z. It is found from the object and through every reference to it.
It is what is taken out, erased, or replaced; if there is none, nothing is changed. A new last member
is found under the names that nothing was found under, a new member in the place of the old one is
found under its name and hides no other, and behind a member that is taken out the next one is
found. -/
theorem members_agree (h : s.WellLinked) (ho : s.kind? o = some .object) (name : WideString) :
    ∃ m, s.FirstNamed name (s.children o) m ∧
      (∀ r, s.Shows r o → s.memberNamed? r name = m ∧ s.hasMember r name = m.isSome) ∧
      (m = none → s.detachMember? o name = none ∧ s.eraseMember o name = s ∧
        ∀ item, s.replaceMember? o name item = none) ∧
      (∀ i, m = some i →
        (∃ t, s.detachMember? o name = some (i, t) ∧ s.Detached t o i name) ∧
        s.Erased (s.eraseMember o name) o i ∧
        ∀ item, s.Insertable o item →
          ∃ t, s.replaceMember? o name item = some t ∧ s.Replaced t o i item name) ∧
      ∀ item, s.Insertable o item →
        s.Pushed (s.pushMember o name item) o item name .owned ∧
        s.Pushed (s.pushLentMember o name item) o item name .borrowed := by
  have hlookup : ∀ r, s.Shows r o → s.memberNamed? r name = s.childNamed? o name := by
    intro r hr
    rw [memberNamed?, hr.resolve_eq ho]
  have hfirst : s.FirstNamed name (s.children o) (s.childNamed? o name) := firstNamed_iff.2 rfl
  refine ⟨s.childNamed? o name, hfirst, fun r hr => ⟨hlookup r hr, ?_⟩, fun hnone => ?_,
    fun i hi => ?_, fun item hitem =>
      ⟨pushed_append h ho hitem name .owned, pushed_append h ho hitem name .borrowed⟩⟩
  · rw [hasMember, hlookup r hr]
  · simp only [eraseMember, detachMember?, replaceMember?, hnone, Option.map_none, implies_true,
      and_self]
  · rw [hi] at hfirst
    refine ⟨⟨s.unlink o i, ?_, detached_unlink h ho hfirst⟩, ?_, fun item hitem =>
      ⟨_, ?_, replaced_replaceChild h ho hitem hfirst⟩⟩
    · rw [detachMember?, hi, Option.map_some]
    · simp only [eraseMember, detachMember?, hi, Option.map_some]
      exact erased_release h hfirst.mem
    · rw [replaceMember?, hi, Option.map_some]

/-- An object with a member without a name, one with a letter beyond Z, and two whose names differ
in case. -/
def mixedNames : JsonTree :=
  .object .none [.scalar .none .null, .scalar (.owned "É") .null, .scalar (.owned "Key") .null,
    .scalar (.borrowed "kEY") .null]

/-- From a reference, the second of two members is found when the first is taken out, and an item
when it has replaced the first. A new member is not hidden by one whose name differs in a letter
beyond Z. -/
theorem members_agree_mixed_names :
    let u := (buildTree .none mixedNames (.empty none)).2
    let v := u.adopt (.standalone (.reference 0))
    let s := v.adopt (.standalone (.scalar .null))
    s.WellLinked ∧ s.Insertable 0 6 ∧
      (∃ t, s.detachMember? 0 "KEY" = some (3, t) ∧ t.memberNamed? 5 "KEY" = some 4) ∧
      (∃ t, s.replaceMember? 0 "KEY" 6 = some t ∧ t.memberNamed? 5 "KEY" = some 6) ∧
      (s.pushMember 0 "é" 6).memberNamed? 5 "é" = some 6 := by
  intro u v s
  have hbuilt : Built (.empty none) (some 0, u) := built_buildTree mixedNames .none (.empty none)
  obtain ⟨⟨ns, g⟩, -⟩ := hbuilt
  have hu := g.wellLinked (wellLinked_empty none) (Nat.le_refl 1)
  have gref : Grown u v [5] [5] :=
    grown_create? (show (Content.reference 0).child? = none from rfl) rfl
  have hv := gref.wellLinked hu (Nat.le_refl 1)
  have gitem : Grown v s [6] [6] :=
    grown_create? (show (Content.scalar .null).child? = none from rfl) rfl
  have hs : s.WellLinked := gitem.wellLinked hv (Nat.le_refl 1)
  have hitem : s.Insertable 0 6 :=
    insertable_fresh hv ⟨.object (some 1), rfl, rfl⟩ gitem (by decide) rfl
  have hshows : s.Shows 5 0 := .inr rfl
  have hkind : s.kind? 0 = some .object := by decide
  obtain ⟨m, -, hfound, -, hsome, -⟩ := members_agree hs hkind "KEY"
  have hm : m = some 3 := (hfound 0 (.inl rfl)).1.symm.trans (by decide)
  obtain ⟨⟨t, ht, hdetached⟩, -, hreplace⟩ := hsome 3 hm
  obtain ⟨w, hw, hreplaced⟩ := hreplace 6 hitem
  obtain ⟨-, -, -, -, -, hpush⟩ := members_agree hs hkind "é"
  refine ⟨hs, hitem, ⟨t, ht, ?_⟩, ⟨w, hw, hreplaced.found hshows⟩, ?_⟩
  · have hnext := hdetached.next hshows (show s.children 0 = [1, 2] ++ 3 :: [4] by decide)
    exact (firstNamed_iff.1 hnext).symm.trans (by decide)
  · exact (hpush 6 hitem).1.missed hshows (by decide)

end Store

end LinkedJson
