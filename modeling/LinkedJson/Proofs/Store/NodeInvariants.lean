import LinkedJson.Proofs.Store.Soundness

/-!
# Invariants of nodes

A `History` is a run of the operations that callers have, with the store before each one. In every
store that a run leads to the nodes are sound, and whoever has a lent name has a history of it
(`LentBy`): the name was lent to the node itself, or the node is a copy of a node with a history,
and since then the node kept the name (`History.node_invariants`).

What one operation does to labels is said once, by `Operation.kept`.
-/

namespace LinkedJson

/-- A value as a caller gives it: of a number the double alone. -/
def Scalar.Given : Scalar → Prop
  | .number n => ∃ d, n = .ofDouble d
  | _ => True

theorem Scalar.Given.mirrored {v : Scalar} (h : v.Given) : v.Mirrored := by
  cases v with
  | number n =>
    obtain ⟨d, rfl⟩ := h
    exact rfl
  | _ => trivial

namespace Store

variable {s t u : Store} {i p id item child : NodeId} {l : Label}

/-! ## Operations -/

/-- The call is one that callers have, and its arguments are of the types that it asks for. A deep
copy is asked for only where no way down goes on forever. -/
def Call.Offered (s : Store) : Call → Prop
  | append .. | insertBefore .. | unlink .. | replace .. => False
  | create (.scalar v) => v.Given
  | create (.reference _) => False
  | createArrayOf values => ∀ v ∈ values, v.Given
  | createReference target => s.Has target
  | duplicate deep id => s.Has id ∧ (deep = true → Acc s.Under id)
  | pushItem array _ | insertItem array _ _ | replaceItem array _ _ => s.kind? array = some .array
  | pushMember object _ _ | pushLentMember object _ _ | replaceMember object _ _ =>
    s.kind? object = some .object
  | pushItemReference array target => s.kind? array = some .array ∧ s.Has target
  | pushMemberReference object _ target => s.kind? object = some .object ∧ s.Has target
  | create (.array _) | create (.object _) | useArena _ | read .. | detachItem .. | detachMember ..
  | eraseItem .. | eraseMember .. | release _ => True

/-- A call, or another double for a number. -/
inductive Operation where
  | call (c : Call)
  | setNumber (id : NodeId) (d : Double)

namespace Operation

def run (s : Store) : Operation → Store
  | call c => c.run s
  | setNumber id d => s.setNumber id d

/-- What an operation asks of its arguments. -/
def Allowed (s : Store) : Operation → Prop
  | call c => c.Allowed s ∧ c.Offered s
  | setNumber .. => True

/-- An operation keeps the lists of children linked. -/
theorem wellLinked {op : Operation} (h : s.WellLinked) (hop : op.Allowed s) :
    (op.run s).WellLinked := by
  cases op with
  | call c => exact (c.effect h hop.1).wellLinked
  | setNumber id d => exact (sameLinks_setNumber s id d).wellLinked h

/-- Where a node has its label from after an operation. -/
inductive LabelFrom (s : Store) (op : Operation) (i : NodeId) (l : Label) : Prop
  /-- The node had it before. -/
  | kept : s.label i = l → LabelFrom s op i l
  /-- The name was lent to the node. -/
  | pushed {object : NodeId} {name : WideString} : op = call (.pushLentMember object name i) →
    l = .borrowed name → LabelFrom s op i l
  /-- The node is a copy, and the node that it shows had the label before. -/
  | copied {deep : Bool} {id j : NodeId} {k : Nat} : op = call (.duplicate deep id) →
    (s.copied deep id)[k]? = some j → i = s.cells.size + k → s.label j = l → LabelFrom s op i l

/-- The nodes are sound after an operation, and lent names come from where they may. -/
structure Kept (s : Store) (op : Operation) (t : Store) : Prop where
  sound : t.Sound
  lent : ∀ i, (t.label i).ownership = .borrowed → LabelFrom s op i (t.label i)

namespace Kept

variable {op : Operation}

theorem refl (hs : s.Sound) : Kept s op s :=
  ⟨hs, fun _ _ => .kept rfl⟩

/-- Changes of links and values do not touch labels. -/
theorem of_label (h : Kept s op t) (hu : u.Sound) (hlabel : ∀ i, u.label i = t.label i) :
    Kept s op u where
  sound := hu
  lent i hi := by
    rw [hlabel] at hi ⊢
    exact h.lent i hi

/-- An item gets a label and a place. -/
theorem put (h : Kept s op t) (hput : Put t u p item l) (halone : t.Standalone item)
    (hl : ∀ k, t.kind? p = some k → k.Fits l)
    (hlent : l.ownership = .borrowed → LabelFrom s op item l) : Kept s op u where
  sound := hput.sound h.sound halone hl
  lent i hi := by
    rw [hput.label] at hi ⊢
    split at hi
    · rename_i hitem
      rw [if_pos hitem, ← hitem.1]
      exact hlent hi
    · rename_i hitem
      rw [if_neg hitem]
      exact h.lent i hi

/-- New nodes come. -/
theorem adds {P : NodeId → Face → Prop} (ht : t.Sound) (h : Adds s t P)
    (hP : ∀ i f, P i f → f.label.ownership = .borrowed → LabelFrom s op i f.label) :
    Kept s op t where
  sound := ht
  lent i hi := by
    by_cases hhas : s.Has i
    · exact .kept (h.label hhas).symm
    · by_cases hnew : t.Has i
      · obtain ⟨f, hf⟩ := has_iff_face?.1 hnew
        rw [label_of_face? hf] at hi ⊢
        exact hP i f (h.new hhas hf) hi
      · refine .kept ?_
        rw [label_eq, label_eq, face?_eq_none hhas, face?_eq_none hnew]

/-- New nodes come without lent names. -/
theorem adds_unlent {P : NodeId → Face → Prop} (ht : t.Sound) (h : Adds s t P)
    (hP : ∀ i f, P i f → f.label.ownership = .owned) : Kept s op t := by
  refine adds ht h fun i f hf hlent => ?_
  rw [hP i f hf] at hlent
  cases hlent

end Kept

/-! ## One operation -/

section

variable {op : Operation}

theorem kept_create (hs : s.Sound) (h : s.WellLinked) {content : Content}
    (hchild : content.child? = none) (hcontent : s.Admits content) :
    Kept s op (((s.create? content).map Prod.snd).getD s) := by
  cases hcreate : s.create? content with
  | none => exact .refl hs
  | some r =>
    obtain ⟨id, t⟩ := r
    refine .adds_unlent (hs.create h hchild hcontent hcreate) (adds_create? hcreate) ?_
    intro i f hf
    rw [hf]
    rfl

theorem kept_duplicate {deep : Bool} (hs : s.Sound) (h : s.WellLinked) (hid : s.Has id)
    (hacc : deep = true → Acc s.Under id) :
    Kept s (call (.duplicate deep id)) (s.duplicate deep id).2 := by
  refine .adds (hs.duplicate h hid hacc) (adds_duplicate hs h hid hacc) fun i f hf _ => ?_
  obtain ⟨k, j, hi, hj, hface⟩ := hf
  obtain ⟨g, -, rfl⟩ := Option.map_eq_some_iff.1 hface
  exact .copied rfl hj hi rfl

/-- A new reference is put behind the last child, under a name that is not lent. -/
theorem kept_pushReference {target : NodeId} {f : NodeId → Store → Store} (hs : s.Sound)
    (h : s.WellLinked) (hp : s.IsContainer p) (htarget : s.Has target)
    (hl : ∀ k, s.kind? p = some k → k.Fits l) (hlent : l.ownership = .owned)
    (hf : ∀ id t, f id t = (t.setLabel id l).append p id) :
    Kept s op (((s.createReference? target).map fun (id, s) => f id s).getD s) := by
  rcases createReference?_cases h target with ⟨-, hnone⟩ | ⟨t, -, hcreate, g, -, hitem⟩
  · rw [hnone]
    exact .refl hs
  · have hadds := adds_create? hcreate
    have ht : t.Sound := hs.create h rfl (hs.admits_reference htarget) hcreate
    have hkept : Kept s op t := .adds_unlent ht hadds fun i f hf => by
      rw [hf]
      rfl
    rw [hcreate]
    simp only [Option.map_some, Option.getD_some, hf]
    refine hkept.put (put_append (g.wellLinked h (Nat.le_refl 1)) (hitem p hp) l)
      (hitem p hp).standalone (fun k hk => hl k ?_) fun hborrowed => ?_
    · rwa [kind?_congr_face (hadds.old hp.has)] at hk
    · rw [hlent] at hborrowed
      cases hborrowed

/-- An item is put behind the last child. -/
theorem kept_append (hs : s.Sound) (h : s.WellLinked) (hitem : s.Insertable p item)
    (hl : ∀ k, s.kind? p = some k → k.Fits l)
    (hlent : l.ownership = .borrowed → LabelFrom s op item l) :
    Kept s op ((s.setLabel item l).append p item) :=
  (Kept.refl hs).put (put_append h hitem l) hitem.standalone hl hlent

theorem kept_replaceChild (hs : s.Sound) (h : s.WellLinked) (hitem : s.Insertable p item)
    (hchild : child ∈ s.children p) (hl : ∀ k, s.kind? p = some k → k.Fits l)
    (hlent : l.ownership = .borrowed → LabelFrom s op item l) :
    Kept s op ((s.setLabel item l).replaceChild p child item) :=
  (Kept.refl hs).put (put_replaceChild h hitem l hchild) hitem.standalone hl hlent

theorem kept_unlink (hs : s.Sound) (h : s.WellLinked) (hchild : child ∈ s.children p) :
    Kept s op (s.unlink p child) :=
  (Kept.refl hs).of_label (hs.unlink h hchild) fun _ => label_congr_face (face?_unlink ..)

theorem kept_erase (hs : s.Sound) (h : s.WellLinked) (hchild : child ∈ s.children p) :
    Kept s op ((s.unlink p child).release child) :=
  (kept_unlink hs h hchild).of_label (hs.erase h hchild) fun _ =>
    label_congr_face (face?_release ..)

end

/-- An item of an array has no name. -/
theorem fits_none (hp : s.kind? p = some .array) : ∀ k, s.kind? p = some k → k.Fits .none := by
  intro k hk
  rw [hp] at hk
  cases hk
  exact rfl

/-- A member of an object has a name. -/
theorem fits_member (hp : s.kind? p = some .object) (hl : l.key ≠ none) :
    ∀ k, s.kind? p = some k → k.Fits l := by
  intro k hk
  rw [hp] at hk
  cases hk
  exact hl

/-- **Every operation keeps the nodes sound and the names accounted for.** -/
theorem kept {op : Operation} (hs : s.Sound) (h : s.WellLinked) (hop : op.Allowed s) :
    Kept s op (op.run s) := by
  have unlent {op : Operation} {item : NodeId} {l : Label} (hl : l.ownership = .owned) :
      l.ownership = .borrowed → LabelFrom s op item l := by
    intro hlent
    rw [hl] at hlent
    cases hlent
  cases op with
  | setNumber id d =>
    exact (Kept.refl hs).of_label (hs.setNumber id d) fun i => label_setNumber ..
  | call c =>
    obtain ⟨hallowed, hoffered⟩ := hop
    cases c with
    | append | insertBefore | unlink | replace => exact hoffered.elim
    | useArena arena =>
      have hchildren := (sameLinks_withArena s arena).children
      exact (Kept.refl hs).of_label
        (hs.shrink (fun _ => rfl) fun p _ hi => hchildren p ▸ hi) fun _ => rfl
    | create content =>
      refine kept_create hs h hallowed ?_
      cases content with
      | scalar v => exact Scalar.Given.mirrored hoffered
      | reference target => exact hoffered.elim
      | array _ | object _ => trivial
    | createReference target => exact kept_create hs h rfl (hs.admits_reference hoffered)
    | createArrayOf values =>
      have hmirrored : ∀ v ∈ values, v.Mirrored := fun v hv => (hoffered v hv).mirrored
      exact .adds_unlent (hs.createArrayOf h hmirrored)
        (adds_createArrayOf values hmirrored s) fun _ _ hf => hf.2
    | read options bytes =>
      exact .adds_unlent (hs.read h options bytes) (adds_read options bytes s) fun _ _ hf => hf.2
    | duplicate deep id => exact kept_duplicate hs h hoffered.1 hoffered.2
    | pushItem array item =>
      exact kept_append hs h hallowed (fits_none hoffered) (unlent rfl)
    | pushMember object name item =>
      exact kept_append hs h hallowed (fits_member hoffered (by simp [Label.owned])) (unlent rfl)
    | pushLentMember object name item =>
      exact kept_append hs h hallowed (fits_member hoffered (by simp [Label.borrowed]))
        fun _ => .pushed rfl rfl
    | pushItemReference array target =>
      exact kept_pushReference (f := fun id t => t.pushItem array id) hs h hallowed hoffered.2
        (fits_none hoffered.1) rfl fun _ _ => rfl
    | pushMemberReference object name target =>
      exact kept_pushReference (f := fun id t => t.pushMember object name id) hs h hallowed
        hoffered.2 (fits_member hoffered.1 (by simp [Label.owned])) rfl fun _ _ => rfl
    | insertItem array index item =>
      simp only [run, Call.run, insertItem?]
      by_cases hindex : index < 0
      · rw [if_pos hindex]
        exact .refl hs
      · rw [if_neg hindex]
        cases hchild : (s.setLabel item .none).childAt? array index with
        | none => exact kept_append hs h hallowed (fits_none hoffered) (unlent rfl)
        | some child =>
          have hmem := mem_of_childAt? hchild
          rw [(sameLinks_setLabel s item .none).children] at hmem
          exact (Kept.refl hs).put (put_insertBefore h hallowed .none hmem)
            (Insertable.standalone hallowed) (fits_none hoffered) (unlent rfl)
    | replaceItem array index item =>
      simp only [run, Call.run, replaceItem?]
      cases hchild : s.childAt? array index with
      | none => exact .refl hs
      | some child =>
        rw [Option.map_some, Option.getD_some]
        exact kept_replaceChild hs h hallowed (mem_of_childAt? hchild) (fits_none hoffered)
          (unlent rfl)
    | replaceMember object name item =>
      simp only [run, Call.run, replaceMember?]
      cases hchild : s.childNamed? object name with
      | none => exact .refl hs
      | some child =>
        rw [Option.map_some, Option.getD_some]
        exact kept_replaceChild hs h hallowed (mem_of_childNamed? hchild)
          (fits_member hoffered (by simp [Label.owned])) (unlent rfl)
    | detachItem parent index =>
      simp only [run, Call.run, detachItem?]
      cases hchild : s.childAt? parent index with
      | none => exact .refl hs
      | some child => exact kept_unlink hs h (mem_of_childAt? hchild)
    | detachMember object name =>
      simp only [run, Call.run, detachMember?]
      cases hchild : s.childNamed? object name with
      | none => exact .refl hs
      | some child => exact kept_unlink hs h (mem_of_childNamed? hchild)
    | eraseItem parent index =>
      simp only [run, Call.run, Store.eraseItem, detachItem?]
      cases hchild : s.childAt? parent index with
      | none => exact .refl hs
      | some child => exact kept_erase hs h (mem_of_childAt? hchild)
    | eraseMember object name =>
      simp only [run, Call.run, Store.eraseMember, detachMember?]
      cases hchild : s.childNamed? object name with
      | none => exact .refl hs
      | some child => exact kept_erase hs h (mem_of_childNamed? hchild)
    | release id =>
      exact (Kept.refl hs).of_label (hs.release h hallowed.1 hallowed.2) fun _ =>
        label_congr_face (face?_release ..)

end Operation

/-! ## Runs -/

/-- A step of a run: an operation, and the store before it. -/
structure Step where
  before : Store
  op : Operation

/-- The stores that runs of allowed operations lead to, with the steps of the run, last one
first. -/
inductive History : List Step → Store → Prop
  | empty (arena : Option Arena) : History [] (.empty arena)
  | step {steps : List Step} {s : Store} {op : Operation} :
    History steps s → op.Allowed s → History (⟨s, op⟩ :: steps) (op.run s)

/-- How a node came by a lent name. -/
inductive LentBy : List Step → NodeId → WideString → Prop
  /-- The name was lent to the node when it was put into an object. -/
  | pushed {steps : List Step} {s : Store} {object item : NodeId} {name : WideString} :
    LentBy (⟨s, .call (.pushLentMember object name item)⟩ :: steps) item name
  /-- The node is a copy of a node that had the name. -/
  | copied {steps : List Step} {s : Store} {deep : Bool} {id i : NodeId} {k : Nat}
    {name : WideString} : (s.copied deep id)[k]? = some i → s.label i = .borrowed name →
    LentBy steps i name → LentBy (⟨s, .call (.duplicate deep id)⟩ :: steps) (s.cells.size + k) name
  /-- The node had the name before the step. -/
  | kept {steps : List Step} {s : Store} {op : Operation} {i : NodeId} {name : WideString} :
    s.label i = .borrowed name → LentBy steps i name → LentBy (⟨s, op⟩ :: steps) i name

namespace History

variable {steps : List Step}

theorem wellLinked (h : History steps s) : s.WellLinked := by
  induction h with
  | empty arena => exact wellLinked_empty arena
  | step _ hop ih => exact Operation.wellLinked ih hop

theorem sound (h : History steps s) : s.Sound := by
  induction h with
  | empty arena => exact .empty arena
  | step h hop ih => exact (Operation.kept ih h.wellLinked hop).sound

/-- Every lent name has a history. -/
theorem lentBy (h : History steps s) (i : NodeId) (hi : (s.label i).ownership = .borrowed) :
    ∃ name, s.label i = .borrowed name ∧ LentBy steps i name := by
  induction h generalizing i with
  | empty arena =>
    have hnot : ¬ (Store.empty arena).Has i := Nat.not_lt_zero i
    rw [label_eq, face?_eq_none hnot] at hi
    cases hi
  | step h hop ih =>
    have hkept := Operation.kept h.sound h.wellLinked hop
    cases hkept.lent i hi with
    | kept hlabel =>
      rw [← hlabel] at hi ⊢
      obtain ⟨name, hname, hlent⟩ := ih i hi
      exact ⟨name, hname, .kept hname hlent⟩
    | @pushed object name hcall hlabel =>
      subst hcall
      exact ⟨name, hlabel, .pushed⟩
    | @copied deep id j k hcall hshown hfresh hlabel =>
      subst hcall
      rw [← hlabel] at hi ⊢
      obtain ⟨name, hname, hlent⟩ := ih j hi
      exact ⟨name, hname, hfresh ▸ .copied hshown hname hlent⟩

/-- **The invariants of nodes hold in every store that a run leads to.** An item of an array has no
name, and a member of an object has one. The integer of a number is the 32-bit view of its double. A
reference refers to a node that is no reference. And a node has a lent name only if the name was
lent to it when it was put into an object, or if it is a copy of a node that had the name. -/
theorem node_invariants (h : History steps s) :
    (∀ p, s.kind? p = some .array → ∀ i ∈ s.children p, s.label i = ⟨none, .owned⟩) ∧
      (∀ p, s.kind? p = some .object → ∀ i ∈ s.children p, (s.label i).key ≠ none) ∧
      (∀ i n, s.content? i = some (.scalar (.number n)) → n.integer = n.value.toInt32) ∧
      (∀ i target, s.content? i = some (.reference target) →
        ∃ k, s.kind? target = some k ∧ k ≠ .reference) ∧
      ∀ i, (s.label i).ownership = .borrowed →
        ∃ name, s.label i = .borrowed name ∧ LentBy steps i name :=
  ⟨fun p hp => h.sound.named p .array hp, fun p hp => h.sound.named p .object hp,
    fun _ _ => h.sound.mirrored, h.sound.targets, h.lentBy⟩

/-- A member gets a lent name, and its copy has the name from there. -/
theorem node_invariants_lent_copy :
    let pair : Store := ⟨#[.standalone (.object none), .standalone (.scalar .null)], none⟩
    let s := Call.run pair (.pushLentMember 0 "k" 1)
    let push : Step := ⟨pair, .call (.pushLentMember 0 "k" 1)⟩
    let copy : Step := ⟨s, .call (.duplicate true 0)⟩
    (∃ steps, History (copy :: push :: steps) (Call.run s (.duplicate true 0)) ∧
      LentBy (copy :: push :: steps) 3 "k") ∧
    (Call.run s (.duplicate true 0)).label 3 = .borrowed "k" := by
  intro pair s push copy
  have hpair : History [⟨Call.run (.empty none) (.create (.object none)),
      .call (.create (.scalar .null))⟩, ⟨.empty none, .call (.create (.object none))⟩] pair :=
    .step (.step (.empty none) ⟨rfl, trivial⟩) ⟨rfl, trivial⟩
  have hnil : ∀ p, pair.children p = [] := by
    intro p
    refine children_eq_nil_of_child? ?_
    match p with
    | 0 => rfl
    | 1 => rfl
    | p + 2 =>
      have hnot : ¬ pair.Has (p + 2) := Nat.not_lt.2 (Nat.le_add_left 2 p)
      exact (bare_of_not_has hnot).child
  have hitem : pair.Insertable 0 1 := by
    refine ⟨⟨.object none, rfl, rfl⟩, show 1 < 2 by decide, fun p hp => ?_, fun hbelow => ?_⟩
    · rw [hnil] at hp
      cases hp
    · rcases Below.iff_children.1 hbelow with ⟨k, hk, -⟩ | he
      · rw [hnil] at hk
        cases hk
      · cases he
  have hs : History (push :: _) s := .step hpair ⟨hitem, rfl⟩
  have hchild : Acc s.Under 1 := by
    refine ⟨1, fun i hi => ?_⟩
    rcases hi with hi | hi
    · rw [show s.children 1 = [] by decide] at hi
      cases hi
    · cases hi
  have hacc : Acc s.Under 0 := by
    refine ⟨0, fun i hi => ?_⟩
    rcases hi with hi | hi
    · rw [show s.children 0 = [1] by decide, List.mem_singleton] at hi
      exact hi ▸ hchild
    · cases hi
  have hcopy : History (copy :: push :: _) (Call.run s (.duplicate true 0)) :=
    .step hs ⟨trivial, show 0 < 2 by decide, fun _ => hacc⟩
  have hlabel : (Call.run s (.duplicate true 0)).label 3 = .borrowed "k" := by decide
  obtain ⟨-, -, -, -, hlent⟩ := hcopy.node_invariants
  obtain ⟨name, hname, hhistory⟩ := hlent 3 (by rw [hlabel]; rfl)
  rw [hlabel] at hname
  cases hname
  exact ⟨⟨_, hcopy, hhistory⟩, hlabel⟩

end History

end Store

end LinkedJson
