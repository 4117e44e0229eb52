import LinkedJson.Proofs.Store.Shape

/-!
# Splices are list operations

Each splice rewrites a few links. What every link is afterwards is told once for each splice, and
from it follows that the splice changes the list of one container (`Edited`): `append` puts a node
behind the others, `insertBefore` in front of a given one, `unlink` takes a node out, and `replace`
puts a node in the place of another.
-/

namespace LinkedJson.Store

/-! ## What splices write -/

section

variable (s : Store) (id i : NodeId)

@[simp] theorem has_setNext (next : Option NodeId) : (s.setNext id next).Has i ↔ s.Has i :=
  has_modify ..

@[simp] theorem has_setPrev (prev : Option NodeId) : (s.setPrev id prev).Has i ↔ s.Has i :=
  has_modify ..

@[simp] theorem has_setChild (child : Option NodeId) : (s.setChild id child).Has i ↔ s.Has i :=
  has_modify ..

variable (o next prev : Option NodeId)

@[simp] theorem has_setNextOf : (s.setNextOf o next).Has i ↔ s.Has i := by
  cases o with
  | none => exact Iff.rfl
  | some id => exact has_setNext ..

@[simp] theorem has_setPrevOf : (s.setPrevOf o prev).Has i ↔ s.Has i := by
  cases o with
  | none => exact Iff.rfl
  | some id => exact has_setPrev ..

theorem next?_setNextOf :
    (s.setNextOf o next).next? i = if o = some i ∧ s.Has i then next else s.next? i := by
  cases o with
  | none => simp [setNextOf]
  | some id => simp [setNextOf, next?_setNext]

theorem prev?_setPrevOf :
    (s.setPrevOf o prev).prev? i = if o = some i ∧ s.Has i then prev else s.prev? i := by
  cases o with
  | none => simp [setPrevOf]
  | some id => simp [setPrevOf, prev?_setPrev]

@[simp] theorem next?_setPrevOf : (s.setPrevOf o prev).next? i = s.next? i := by
  cases o with
  | none => rfl
  | some id => exact next?_setPrev ..

@[simp] theorem prev?_setNextOf : (s.setNextOf o next).prev? i = s.prev? i := by
  cases o with
  | none => rfl
  | some id => exact prev?_setNext ..

@[simp] theorem content?_setNextOf : (s.setNextOf o next).content? i = s.content? i := by
  cases o with
  | none => rfl
  | some id => exact content?_setNext ..

@[simp] theorem content?_setPrevOf : (s.setPrevOf o prev).content? i = s.content? i := by
  cases o with
  | none => rfl
  | some id => exact content?_setPrev ..

@[simp] theorem child?_setNextOf : (s.setNextOf o next).child? i = s.child? i := by
  rw [child?, content?_setNextOf, child?]

@[simp] theorem child?_setPrevOf : (s.setPrevOf o prev).child? i = s.child? i := by
  rw [child?, content?_setPrevOf, child?]

variable (p : NodeId) (first : Bool)

@[simp] theorem has_redirect : (s.redirect p first prev next).Has i ↔ s.Has i := by
  cases first with
  | true => exact has_setChild ..
  | false => exact has_setNextOf ..

theorem next?_redirect : (s.redirect p first prev next).next? i =
    if first = false ∧ prev = some i ∧ s.Has i then next else s.next? i := by
  cases first with
  | true => simp [redirect]
  | false => simp [redirect, next?_setNextOf]

@[simp] theorem prev?_redirect : (s.redirect p first prev next).prev? i = s.prev? i := by
  cases first with
  | true => exact prev?_setChild ..
  | false => exact prev?_setNextOf ..

end

/-- The node is an array or an object. -/
def IsContainer (s : Store) (id : NodeId) : Prop :=
  ∃ content, s.content? id = some content ∧ content.isContainer = true

theorem child?_setChild_self {s : Store} {p : NodeId} (h : s.IsContainer p) (child : Option NodeId) :
    (s.setChild p child).child? p = child := by
  obtain ⟨content, hcontent, hcontainer⟩ := h
  rw [child?, content?_setChild, if_pos rfl, hcontent]
  cases content with
  | scalar v => cases hcontainer
  | reference target => cases hcontainer
  | array c => rfl
  | object c => rfl

theorem child?_setChild_of_ne {s : Store} {p q : NodeId} (h : p ≠ q) (child : Option NodeId) :
    (s.setChild p child).child? q = s.child? q := by
  rw [child?, content?_setChild, if_neg h, child?]

theorem IsContainer.congr {s t : Store} {p : NodeId} (h : s.IsContainer p)
    (hcontent : t.content? p = s.content? p) : t.IsContainer p := by
  obtain ⟨content, hc, hcontainer⟩ := h
  exact ⟨content, hcontent.trans hc, hcontainer⟩

theorem isContainer_of_child? {s : Store} {p i : NodeId} (h : s.child? p = some i) :
    s.IsContainer p := by
  rw [child?] at h
  cases hc : s.content? p with
  | none =>
    rw [hc] at h
    cases h
  | some content =>
    rw [hc] at h
    refine ⟨content, hc, ?_⟩
    cases content with
    | scalar v => cases h
    | reference target => cases h
    | array c => rfl
    | object c => rfl

/-! ## Replacing a part of a list -/

namespace Linked

variable {s t : Store} {prev prev' stop stop' : Option NodeId} {ids : List NodeId}

/-- A chain may lead to another place: only the link of its last node differs. -/
theorem redirect_last (h : s.Linked prev ids stop) (hnodup : ids.Nodup) (hhas : ∀ i ∈ ids, t.Has i)
    (hprev : ∀ i ∈ ids, t.prev? i = s.prev? i)
    (hnext : ∀ i ∈ ids, ids.getLast? ≠ some i → t.next? i = s.next? i)
    (hlast : ∀ i, ids.getLast? = some i → t.next? i = stop') : t.Linked prev ids stop' := by
  rcases List.eq_nil_or_concat ids with rfl | ⟨xs, last, hids⟩
  · trivial
  · rw [List.concat_eq_append] at hids
    subst hids
    obtain ⟨hxs, hend⟩ := append_iff.1 h
    obtain ⟨-, hprev_last, -⟩ := singleton_iff.1 hend
    have mem_last : last ∈ xs ++ [last] := List.mem_append_right _ List.mem_cons_self
    have not_last : ∀ i ∈ xs, (xs ++ [last]).getLast? ≠ some i := by
      intro i hi e
      rw [List.getLast?_concat] at e
      cases e
      exact (List.nodup_append.1 hnodup).2.2 last hi last List.mem_cons_self rfl
    refine append_iff.2 ⟨hxs.congr ?_ ?_ ?_, singleton_iff.2 ⟨hhas last mem_last, ?_, ?_⟩⟩
    · exact fun i hi => hhas i (List.mem_append_left _ hi)
    · exact fun i hi => hprev i (List.mem_append_left _ hi)
    · exact fun i hi => hnext i (List.mem_append_left _ hi) (not_last i hi)
    · exact (hprev last mem_last).trans hprev_last
    · exact hlast last (List.getLast?_concat ..)

/-- A chain may come from another place: only the link of its first node differs. -/
theorem redirect_first (h : s.Linked prev ids stop) (hnodup : ids.Nodup)
    (hhas : ∀ i ∈ ids, t.Has i) (hnext : ∀ i ∈ ids, t.next? i = s.next? i)
    (hprev : ∀ i ∈ ids, ids.head? ≠ some i → t.prev? i = s.prev? i)
    (hfirst : ∀ i, ids.head? = some i → t.prev? i = prev') : t.Linked prev' ids stop := by
  cases ids with
  | nil => trivial
  | cons id ids =>
    obtain ⟨-, -, hn, hrest⟩ := h
    obtain ⟨hid, -⟩ := List.nodup_cons.1 hnodup
    have mem : id ∈ id :: ids := List.mem_cons_self
    refine ⟨hhas id mem, hfirst id rfl, (hnext id mem).trans hn, hrest.congr ?_ ?_ ?_⟩
    · exact fun i hi => hhas i (List.mem_cons_of_mem _ hi)
    · intro i hi
      refine hprev i (List.mem_cons_of_mem _ hi) fun e => ?_
      cases e
      exact hid hi
    · exact fun i hi => hnext i (List.mem_cons_of_mem _ hi)

end Linked

/-- `t` is `s`, but in the list of children of `p` the nodes `old` between `xs` and `ys` have given
way to the nodes `new`. -/
structure Spliced (s t : Store) (p : NodeId) (xs old new ys : List NodeId) : Prop where
  has : ∀ i, t.Has i ↔ s.Has i
  head : t.child? p = (xs ++ new ++ ys).head?
  child : ∀ q, q ≠ p → t.child? q = s.child? q
  linked : t.Linked xs.getLast? new ys.head?
  prev : ∀ i, i ∉ old → i ∉ new → ys.head? ≠ some i → t.prev? i = s.prev? i
  next : ∀ i, i ∉ old → i ∉ new → xs.getLast? ≠ some i → t.next? i = s.next? i
  last : ∀ i, xs.getLast? = some i → t.next? i = (new ++ ys).head?
  first : ∀ i, ys.head? = some i → t.prev? i = (xs ++ new).getLast?
  entered : ∀ i ∈ new, i ∉ old → s.Standalone i ∧ ¬ s.Below p i
  left : ∀ i ∈ old, i ∉ new → t.prev? i = none ∧ t.next? i = none

theorem Spliced.edited {s t : Store} {p : NodeId} {xs old new ys : List NodeId}
    (e : s.Spliced t p xs old new ys) (h : s.WellLinked) (hp : s.children p = xs ++ old ++ ys) :
    s.Edited t p (xs ++ new ++ ys) := by
  have hlinked := h.linked p
  rw [hp] at hlinked
  obtain ⟨hfront, hys⟩ := Linked.append_iff.1 hlinked
  obtain ⟨hxs, -⟩ := Linked.append_iff.1 hfront
  obtain ⟨hnodup_front, hnodup_ys, hdisjoint⟩ := List.nodup_append.1 hlinked.nodup
  obtain ⟨hnodup_xs, -, hdisjoint_xs⟩ := List.nodup_append.1 hnodup_front
  have hxs_old : ∀ i ∈ xs, i ∉ old := fun i hi hmem => hdisjoint_xs i hi i hmem rfl
  have hys_old : ∀ i ∈ ys, i ∉ old :=
    fun i hi hmem => hdisjoint i (List.mem_append_right _ hmem) i hi rfl
  have hxs_ys : ∀ i ∈ xs, i ∉ ys :=
    fun i hi hmem => hdisjoint i (List.mem_append_left _ hi) i hmem rfl
  -- what was a child before and stays does not enter
  have hnew : ∀ i ∈ s.children p, i ∉ old → i ∉ new :=
    fun i hi hold hmem => (e.entered i hmem hold).1 p hi
  have mem_xs : ∀ i ∈ xs, i ∈ s.children p := by
    intro i hi
    rw [hp]
    exact List.mem_append_left _ (List.mem_append_left _ hi)
  have mem_ys : ∀ i ∈ ys, i ∈ s.children p := by
    intro i hi
    rw [hp]
    exact List.mem_append_right _ hi
  have hxs_new : ∀ i ∈ xs, i ∉ new := fun i hi => hnew i (mem_xs i hi) (hxs_old i hi)
  have hys_new : ∀ i ∈ ys, i ∉ new := fun i hi => hnew i (mem_ys i hi) (hys_old i hi)
  have not_head : ∀ i, i ∉ ys → ys.head? ≠ some i :=
    fun i hi e => hi (List.mem_of_mem_head? e)
  have not_last : ∀ i, i ∉ xs → xs.getLast? ≠ some i :=
    fun i hi e => hi (List.mem_of_getLast? e)
  have hxs' : t.Linked none xs (new ++ ys).head? := by
    refine hxs.redirect_last hnodup_xs (fun i hi => (e.has i).2 (hxs.has i hi)) ?_ ?_ e.last
    · exact fun i hi => e.prev i (hxs_old i hi) (hxs_new i hi) (not_head i (hxs_ys i hi))
    · exact fun i hi => e.next i (hxs_old i hi) (hxs_new i hi)
  have hys' : t.Linked (xs ++ new).getLast? ys none := by
    refine hys.redirect_first hnodup_ys (fun i hi => (e.has i).2 (hys.has i hi)) ?_ ?_ e.first
    · exact fun i hi => e.next i (hys_old i hi) (hys_new i hi)
        (not_last i fun hmem => hxs_ys i hmem hi)
    · exact fun i hi => e.prev i (hys_old i hi) (hys_new i hi)
  refine ⟨fun hi => (e.has _).2 hi, e.head, ?_, fun hq => e.child _ hq, ?_, ?_, ?_, ?_⟩
  · refine Linked.append_iff.2 ⟨Linked.append_iff.2 ⟨?_, ?_⟩, ?_⟩
    · rw [Option.or_none, ← List.head?_append]
      exact hxs'
    · rw [Option.or_none, Option.or_none]
      exact e.linked
    · rw [Option.or_none]
      exact hys'
  · intro i hi hi'
    rw [hp] at hi
    simp only [List.mem_append, not_or] at hi hi'
    exact e.prev i hi.1.2 hi'.1.2 (not_head i hi.2)
  · intro i hi hi'
    rw [hp] at hi
    simp only [List.mem_append, not_or] at hi hi'
    exact e.next i hi.1.2 hi'.1.2 (not_last i hi.1.1)
  · intro i hi hi'
    rw [hp] at hi'
    simp only [List.mem_append, not_or] at hi hi'
    rcases hi with (hi | hi) | hi
    · exact absurd hi hi'.1.1
    · exact e.entered i hi hi'.1.2
    · exact absurd hi hi'.2
  · intro i hi hi'
    rw [hp] at hi
    simp only [List.mem_append, not_or] at hi hi'
    rcases hi with (hi | hi) | hi
    · exact absurd hi hi'.1.1
    · exact e.left i hi hi'.1.2
    · exact absurd hi hi'.2

/-! ## The four splices -/

variable {s : Store} {p child item : NodeId} {xs ys : List NodeId}

/-- The item may become a child of `p`. -/
structure Insertable (s : Store) (p item : NodeId) : Prop where
  container : s.IsContainer p
  has : s.Has item
  standalone : s.Standalone item
  notAbove : ¬ s.Below p item

/-- The links around a child. -/
theorem WellLinked.links_of_child (h : s.WellLinked) (hp : s.children p = xs ++ [child] ++ ys) :
    s.prev? child = xs.getLast? ∧ s.next? child = ys.head? ∧
      (∀ i, ys.head? = some i → s.prev? i = some child) ∧
      (s.child? p == some child) = xs.isEmpty := by
  have hlinked := h.linked p
  rw [hp] at hlinked
  obtain ⟨hfront, hys⟩ := Linked.append_iff.1 hlinked
  obtain ⟨-, hchild⟩ := Linked.append_iff.1 hfront
  obtain ⟨-, hprev, hnext⟩ := Linked.singleton_iff.1 hchild
  rw [Option.or_none] at hprev hnext
  refine ⟨hprev, hnext, ?_, ?_⟩
  · intro i hi
    obtain ⟨ys, rfl⟩ := List.head?_eq_some_iff.1 hi
    rw [hys.2.1, List.getLast?_concat]
    rfl
  · rw [h.head p, hp]
    cases xs with
    | nil => simp
    | cons x xs =>
      have hne : x ≠ child := by
        intro heq
        subst heq
        simpa using hlinked.nodup
      simpa using hne

theorem spliced_append (h : s.WellLinked) (hitem : s.Insertable p item) :
    s.Spliced (s.append p item) p (s.children p) [] [item] [] := by
  obtain ⟨hprev, hnext⟩ := h.alone hitem.standalone
  have entered : ∀ i ∈ [item], i ∉ [] → s.Standalone i ∧ ¬ s.Below p i := by
    intro i hi _
    rw [List.mem_singleton.1 hi]
    exact ⟨hitem.standalone, hitem.notAbove⟩
  rcases List.eq_nil_or_concat (s.children p) with hnil | ⟨xs, last, hlast⟩
  · have happend : s.append p item = s.setChild p (some item) := by
      rw [append, hnil]
      rfl
    rw [happend, hnil]
    refine ⟨fun i => has_setChild .., child?_setChild_self hitem.container _,
      fun q hq => child?_setChild_of_ne (Ne.symm hq) _, ?_, fun i _ _ _ => prev?_setChild ..,
      fun i _ _ _ => next?_setChild .., (fun i hi => nomatch hi), (fun i hi => nomatch hi), entered,
      fun i hi => nomatch hi⟩
    refine Linked.singleton_iff.2 ⟨(has_setChild ..).2 hitem.has, ?_, ?_⟩
    · rw [prev?_setChild, hprev]
      rfl
    · rw [next?_setChild, hnext]
      rfl
  · rw [List.concat_eq_append] at hlast
    have happend : s.append p item = s.link last item := by
      rw [append, hlast, List.getLast?_concat]
    have hlast_mem : last ∈ s.children p := by
      rw [hlast]
      exact List.mem_append_right _ List.mem_cons_self
    have hne : last ≠ item := by
      intro heq
      subst heq
      exact hitem.standalone p hlast_mem
    have hlast_eq : (s.children p).getLast? = some last := by
      rw [hlast, List.getLast?_concat]
    rw [happend]
    refine ⟨fun i => has_link .., ?_, fun q _ => child?_link .., ?_, ?_, ?_, ?_,
      (fun i hi => nomatch hi), entered, fun i hi => nomatch hi⟩
    · rw [child?_link, h.head p, hlast]
      simp
    · rw [hlast_eq]
      refine Linked.singleton_iff.2 ⟨(has_link ..).2 hitem.has, ?_, ?_⟩
      · rw [prev?_link, if_pos ⟨rfl, hitem.has⟩]
      · rw [next?_link, if_neg fun e => hne e.1, hnext]
        rfl
    · intro i _ hi _
      rw [prev?_link, if_neg]
      intro h
      obtain ⟨rfl, -⟩ := h
      exact hi List.mem_cons_self
    · intro i _ _ hi
      rw [next?_link, if_neg]
      intro h
      obtain ⟨rfl, -⟩ := h
      exact hi hlast_eq
    · intro i hi
      rw [hlast_eq] at hi
      cases hi
      rw [next?_link, if_pos ⟨rfl, h.has_of_mem hlast_mem⟩]
      rfl

/-- The neighbours of a place in a list of children. -/
theorem WellLinked.neighbours (h : s.WellLinked) (hp : s.children p = xs ++ [child] ++ ys) :
    (∀ i, xs.getLast? = some i → s.Has i ∧ i ∈ s.children p ∧ i ≠ child ∧ xs.isEmpty = false) ∧
      (∀ i, ys.head? = some i → s.Has i ∧ i ∈ s.children p ∧ i ≠ child) ∧
      ∀ i, xs.getLast? = some i → ys.head? ≠ some i := by
  have hnodup := (h.linked p).nodup
  rw [hp] at hnodup
  obtain ⟨hnodup_front, -, hdisjoint⟩ := List.nodup_append.1 hnodup
  refine ⟨?_, ?_, ?_⟩
  · intro i hi
    have hmem : i ∈ xs := List.mem_of_getLast? hi
    have hmem' : i ∈ s.children p := by
      rw [hp]
      simp [hmem]
    refine ⟨h.has_of_mem hmem', hmem', ?_, ?_⟩
    · exact (List.nodup_append.1 hnodup_front).2.2 i hmem child List.mem_cons_self
    · cases xs with
      | nil => cases hi
      | cons x xs => rfl
  · intro i hi
    have hmem : i ∈ ys := List.mem_of_mem_head? hi
    have hmem' : i ∈ s.children p := by
      rw [hp]
      simp [hmem]
    refine ⟨h.has_of_mem hmem', hmem', ?_⟩
    exact fun e => hdisjoint child (by simp) i hmem e.symm
  · intro i hi e
    exact hdisjoint i (List.mem_append_left _ (List.mem_of_getLast? hi)) i
      (List.mem_of_mem_head? e) rfl

theorem spliced_insertBefore (h : s.WellLinked) (hitem : s.Insertable p item)
    (hp : s.children p = xs ++ [child] ++ ys) :
    s.Spliced (s.insertBefore p child item) p xs [child] [item, child] ys := by
  obtain ⟨hprev, hnext, hafter, hfirst⟩ := h.links_of_child hp
  obtain ⟨hxs, hys, -⟩ := h.neighbours hp
  have hchild_mem : child ∈ s.children p := by
    rw [hp]
    simp
  have hchild := h.has_of_mem hchild_mem
  have not_item : ∀ i ∈ s.children p, item ≠ i := by
    intro i hi heq
    subst heq
    exact hitem.standalone p hi
  have hne := not_item child hchild_mem
  have next_eq : ∀ i, (s.insertBefore p child item).next? i =
      if xs.getLast? = some i then some item
      else if item = i then some child else s.next? i := by
    intro i
    rw [insertBefore, next?_redirect, next?_setPrev, next?_setPrev, next?_setNext, hfirst, hprev]
    by_cases hlast : xs.getLast? = some i
    · obtain ⟨hhas, -, -, hempty⟩ := hxs i hlast
      simp [hlast, hhas, hempty]
    · by_cases hi : item = i
      · subst hi
        simp [hlast, hitem.has]
      · simp [hlast, hi]
  have prev_eq : ∀ i, (s.insertBefore p child item).prev? i =
      if child = i then some item else if item = i then xs.getLast? else s.prev? i := by
    intro i
    rw [insertBefore, prev?_redirect, prev?_setPrev, prev?_setPrev, prev?_setNext, hprev]
    by_cases hi : child = i
    · subst hi
      simp [hchild]
    · by_cases hi' : item = i
      · subst hi'
        simp [hi, hitem.has]
      · simp [hi, hi']
  have has_eq : ∀ i, (s.insertBefore p child item).Has i ↔ s.Has i := by
    intro i
    simp [insertBefore]
  refine ⟨has_eq, ?_, ?_, ?_, ?_, ?_, ?_, ?_, ?_, ?_⟩
  · rw [insertBefore, hfirst]
    cases xs with
    | nil =>
      exact child?_setChild_self (hitem.container.congr (by simp)) _
    | cons x xs =>
      simp [redirect, h.head p, hp]
  · intro q hq
    rw [insertBefore, redirect]
    split
    · rw [child?_setChild_of_ne (Ne.symm hq)]
      simp
    · simp
  · refine ⟨(has_eq _).2 hitem.has, ?_, ?_, (has_eq _).2 hchild, ?_, ?_, trivial⟩
    · rw [prev_eq, if_neg hne.symm, if_pos rfl]
    · rw [next_eq, if_neg, if_pos rfl]
      · rfl
      · intro e
        exact not_item item (hxs item e).2.1 rfl
    · rw [prev_eq, if_pos rfl]
    · rw [next_eq, if_neg, if_neg hne, hnext]
      · rfl
      · intro e
        exact (hxs child e).2.2.1 rfl
  · intro i hold hnew _
    have hi : item ≠ i ∧ child ≠ i := by simpa [eq_comm] using hnew
    rw [prev_eq, if_neg hi.2, if_neg hi.1]
  · intro i hold hnew hlast
    have hi : item ≠ i ∧ child ≠ i := by simpa [eq_comm] using hnew
    rw [next_eq, if_neg hlast, if_neg hi.1]
  · intro i hi
    rw [next_eq, if_pos hi]
    rfl
  · intro i hi
    obtain ⟨-, hmem, hne_child⟩ := hys i hi
    rw [prev_eq, if_neg hne_child.symm, if_neg (not_item i hmem), hafter i hi]
    simp
  · intro i hnew hold
    rcases List.mem_cons.1 hnew with rfl | hi
    · exact ⟨hitem.standalone, hitem.notAbove⟩
    · exact absurd hi hold
  · intro i hold hnew
    exact absurd (List.mem_cons_of_mem _ hold) hnew

theorem spliced_unlink (h : s.WellLinked) (hp : s.children p = xs ++ [item] ++ ys) :
    s.Spliced (s.unlink p item) p xs [item] [] ys := by
  obtain ⟨hprev, hnext, -, hfirst⟩ := h.links_of_child hp
  obtain ⟨hxs, hys, hapart⟩ := h.neighbours hp
  have hitem_mem : item ∈ s.children p := by
    rw [hp]
    simp
  have hitem := h.has_of_mem hitem_mem
  have has_eq : ∀ i, (s.unlink p item).Has i ↔ s.Has i := by
    intro i
    rw [unlink, has_setNext, has_setPrev]
    split <;> simp
  have next_eq : ∀ i, (s.unlink p item).next? i =
      if item = i then none else if xs.getLast? = some i then ys.head? else s.next? i := by
    intro i
    rw [unlink, hprev, hnext, next?_setNext]
    by_cases hi : item = i
    · subst hi
      rw [if_pos rfl, if_pos]
      refine ⟨rfl, ?_⟩
      split <;> simp [hitem]
    · rw [if_neg hi, if_neg fun e => hi e.1, next?_setPrev]
      have hstep : ((s.setNextOf xs.getLast? ys.head?).setPrevOf ys.head? xs.getLast?).next? i =
          if xs.getLast? = some i then ys.head? else s.next? i := by
        rw [next?_setPrevOf, next?_setNextOf]
        by_cases hlast : xs.getLast? = some i
        · simp [hlast, (hxs i hlast).1]
        · simp [hlast]
      split
      · rw [next?_setChild, hstep]
      · exact hstep
  have prev_eq : ∀ i, (s.unlink p item).prev? i =
      if item = i then none else if ys.head? = some i then xs.getLast? else s.prev? i := by
    intro i
    rw [unlink, hprev, hnext, prev?_setNext, prev?_setPrev]
    by_cases hi : item = i
    · subst hi
      rw [if_pos rfl, if_pos]
      refine ⟨rfl, ?_⟩
      split <;> simp [hitem]
    · rw [if_neg hi, if_neg fun e => hi e.1]
      have hstep : ((s.setNextOf xs.getLast? ys.head?).setPrevOf ys.head? xs.getLast?).prev? i =
          if ys.head? = some i then xs.getLast? else s.prev? i := by
        rw [prev?_setPrevOf, prev?_setNextOf]
        by_cases hhead : ys.head? = some i
        · simp [hhead, (hys i hhead).1]
        · simp [hhead]
      split
      · rw [prev?_setChild, hstep]
      · exact hstep
  refine ⟨has_eq, ?_, ?_, trivial, ?_, ?_, ?_, ?_, (fun i hi => nomatch hi), ?_⟩
  · rw [unlink, hprev, hnext, child?_setNext, child?_setPrev]
    have hsame : ((s.setNextOf xs.getLast? ys.head?).setPrevOf ys.head? xs.getLast?).child? p =
        s.child? p := by simp
    rw [hsame, hfirst]
    cases xs with
    | nil =>
      have hcontainer : s.IsContainer p := by
        refine isContainer_of_child? (i := item) ?_
        rw [h.head p, hp]
        rfl
      rw [List.isEmpty_nil, if_pos rfl, child?_setChild_self]
      · simp
      · exact hcontainer.congr (by simp)
    | cons x xs =>
      simp [h.head p, hp]
  · intro q hq
    rw [unlink, child?_setNext, child?_setPrev]
    split
    · rw [child?_setChild_of_ne (Ne.symm hq)]
      simp
    · simp
  · intro i hold _ hhead
    have hi : item ≠ i := fun e => hold (by simp [e])
    rw [prev_eq, if_neg hi, if_neg hhead]
  · intro i hold _ hlast
    have hi : item ≠ i := fun e => hold (by simp [e])
    rw [next_eq, if_neg hi, if_neg hlast]
  · intro i hi
    rw [next_eq, if_neg (hxs i hi).2.2.1.symm, if_pos hi]
    rfl
  · intro i hi
    rw [prev_eq, if_neg (hys i hi).2.2.symm, if_pos hi, List.append_nil]
  · intro i hi _
    rw [List.mem_singleton.1 hi]
    exact ⟨by rw [prev_eq, if_pos rfl], by rw [next_eq, if_pos rfl]⟩

theorem spliced_replace (h : s.WellLinked) (hitem : s.Insertable p item)
    (hp : s.children p = xs ++ [child] ++ ys) :
    s.Spliced (s.replace p child item) p xs [child] [item] ys := by
  obtain ⟨hprev, hnext, -, hfirst⟩ := h.links_of_child hp
  obtain ⟨hxs, hys, -⟩ := h.neighbours hp
  have hchild_mem : child ∈ s.children p := by
    rw [hp]
    simp
  have hchild := h.has_of_mem hchild_mem
  have not_item : ∀ i ∈ s.children p, item ≠ i := by
    intro i hi heq
    subst heq
    exact hitem.standalone p hi
  have hne := not_item child hchild_mem
  have has_eq : ∀ i, (s.replace p child item).Has i ↔ s.Has i := by
    intro i
    simp [replace]
  have next_eq : ∀ i, (s.replace p child item).next? i =
      if child = i then none else if xs.getLast? = some i then some item
      else if item = i then ys.head? else s.next? i := by
    intro i
    rw [replace, hprev, hnext, hfirst, next?_setPrev, next?_setNext, next?_redirect,
      next?_setPrevOf, next?_setPrev, next?_setNext]
    by_cases hi : child = i
    · subst hi
      simp [hchild]
    · by_cases hlast : xs.getLast? = some i
      · obtain ⟨hhas, -, -, hempty⟩ := hxs i hlast
        simp [hi, hlast, hhas, hempty]
      · by_cases hi' : item = i
        · subst hi'
          simp [hi, hlast, hitem.has]
        · simp [hi, hlast, hi']
  have prev_eq : ∀ i, (s.replace p child item).prev? i =
      if child = i then none else if ys.head? = some i then some item
      else if item = i then xs.getLast? else s.prev? i := by
    intro i
    rw [replace, hprev, hnext, hfirst, prev?_setPrev, prev?_setNext, prev?_redirect,
      prev?_setPrevOf, prev?_setPrev, prev?_setNext]
    by_cases hi : child = i
    · subst hi
      simp [hchild]
    · by_cases hhead : ys.head? = some i
      · simp [hi, hhead, (hys i hhead).1]
      · by_cases hi' : item = i
        · subst hi'
          simp [hi, hhead, hitem.has]
        · simp [hi, hhead, hi']
  refine ⟨has_eq, ?_, ?_, ?_, ?_, ?_, ?_, ?_, ?_, ?_⟩
  · rw [replace, hfirst, child?_setPrev, child?_setNext]
    cases xs with
    | nil => exact child?_setChild_self (hitem.container.congr (by simp)) _
    | cons x xs => simp [redirect, h.head p, hp]
  · intro q hq
    rw [replace, child?_setPrev, child?_setNext, redirect]
    split
    · rw [child?_setChild_of_ne (Ne.symm hq)]
      simp
    · simp
  · refine Linked.singleton_iff.2 ⟨(has_eq _).2 hitem.has, ?_, ?_⟩
    · rw [prev_eq, if_neg hne.symm, if_neg, if_pos rfl]
      exact fun e => not_item item (hys item e).2.1 rfl
    · rw [next_eq, if_neg hne.symm, if_neg, if_pos rfl]
      exact fun e => not_item item (hxs item e).2.1 rfl
  · intro i hold hnew hhead
    have hi : child ≠ i := fun e => hold (by simp [e])
    have hi' : item ≠ i := fun e => hnew (by simp [e])
    rw [prev_eq, if_neg hi, if_neg hhead, if_neg hi']
  · intro i hold hnew hlast
    have hi : child ≠ i := fun e => hold (by simp [e])
    have hi' : item ≠ i := fun e => hnew (by simp [e])
    rw [next_eq, if_neg hi, if_neg hlast, if_neg hi']
  · intro i hi
    rw [next_eq, if_neg (hxs i hi).2.2.1.symm, if_pos hi]
    rfl
  · intro i hi
    rw [prev_eq, if_neg (hys i hi).2.2.symm, if_pos hi, List.getLast?_concat]
  · intro i hi _
    rw [List.mem_singleton.1 hi]
    exact ⟨hitem.standalone, hitem.notAbove⟩
  · intro i hi _
    rw [List.mem_singleton.1 hi]
    exact ⟨by rw [prev_eq, if_pos rfl], by rw [next_eq, if_pos rfl]⟩

end LinkedJson.Store
