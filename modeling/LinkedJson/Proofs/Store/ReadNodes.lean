import LinkedJson.Proofs.Store.Naming

/-!
# Nodes of a document that is read

What reading a document leaves behind in a store, node by node: children that are linked in both
directions in the order of the source, names where they belong and nowhere else, and only what
tokens stand for (`Store.ReadNode`, `Store.ReadTree`). All of this is read off the tree of the
document, which hands it down to the nodes that are enclosed by its root (`Enclosed.forall_treeTo`).

Nothing among it can keep a writer from writing the tree again, and what is written is a document of
the same depth, so it is read to its end (`Session.parse_guarantees`).
-/

namespace LinkedJson

/-! ## Parts of a tree -/

namespace JsonTree

variable {t u : JsonTree}

theorem AsRead.parts (h : t.AsRead) : ∀ u ∈ t.parts, u.AsRead := by
  cases h with
  | scalar => exact fun _ hu => nomatch hu
  | array _ _ hitems => exact hitems
  | object _ _ hmembers => exact hmembers

theorem nesting_le_nestings {ts : List JsonTree} (h : u ∈ ts) : u.nesting ≤ nestings ts := by
  induction ts with
  | nil => cases h
  | cons t ts ih =>
    rw [nestings]
    rcases List.mem_cons.1 h with rfl | h
    · exact Nat.le_max_left ..
    · exact (ih h).trans (Nat.le_max_right ..)

theorem nesting_lt_of_mem_parts (h : u ∈ t.parts) : u.nesting < t.nesting := by
  cases t with
  | array _ ts | object _ ts => exact Nat.lt_succ_of_le (nesting_le_nestings h)
  | scalar | reference => cases h

end JsonTree

namespace Store

variable {s t : Store} {root p : NodeId} {ns : List NodeId} {depth : Nat} {x : JsonTree}

/-- A node cannot nest deeper below its root than the tree of the root does. -/
theorem Enclosed.nesting_le (h : s.Enclosed root depth p) (n : Nat) :
    (s.treeTo n p).nesting + depth ≤ (s.treeTo (n + depth) root).nesting := by
  induction h generalizing n with
  | root => exact Nat.le_refl _
  | @child depth p i _ hi ih =>
    have hpart : s.treeTo n i ∈ (s.treeTo (n + 1) p).parts := by
      rw [parts_treeTo]
      exact List.mem_map_of_mem hi
    have hlt := JsonTree.nesting_lt_of_mem_parts hpart
    have hle := ih (n + 1)
    rw [Nat.add_right_comm, Nat.add_assoc] at hle
    omega

/-! ## What a document leaves behind -/

/-- The node holds what tokens stand for: no reference and nothing raw. The items of an array have
no names, and each member of an object owns a name without the character 0. -/
def HoldsTokens (s : Store) (p : NodeId) : Content → Prop
  | .scalar v => v.OfToken
  | .array _ => ∀ i ∈ s.children p, s.label i = .none
  | .object _ =>
    ∀ i ∈ s.children p, ∃ key : String, s.label i = .owned key ∧ '\x00' ∉ key.toList
  | .reference _ => False

/-- A node of a document that was read, with `depth` containers around it. -/
structure ReadNode (s : Store) (maxDepth : Int) (depth : Nat) (p : NodeId) : Prop where
  /-- The children are linked in both directions, and the node names the first of them. -/
  first : s.child? p = (s.children p).head?
  links : s.Linked none (s.children p) none
  content : ∃ c, s.content? p = some c ∧ s.HoldsTokens p c
  /-- There are fewer containers around a container than the limit allows. -/
  depth_lt : ∀ c, s.content? p = some c → c.isContainer = true → (depth : Int) < maxDepth

/-- The tree of a document that was read from a text. -/
structure ReadTree (s : Store) (options : ReadOptions) (bytes : List UInt8) (root : NodeId) :
    Prop where
  label : s.label root = .none
  prev : s.prev? root = none
  next : s.next? root = none
  /-- No node hangs from the root in two ways. -/
  nodup : (s.owned root).Nodup
  nodes : ∀ depth p, s.Enclosed root depth p → s.ReadNode options.maxDepth depth p
  /-- Siblings are in the order of the source: the tree is that of a derivation within the text,
  behind blanks. -/
  source : ∃ (before : Grammar.Blanks) (v : Grammar.Value) (after : List UInt8),
    content bytes = before.bytes ++ (v.bytes ++ after) ∧ s.tree root = v.tree

/-- A node whose tree is read, down to its grandchildren, holds what tokens stand for. -/
theorem holdsTokens_of_asRead {n : Nat} {c : Content} (h : (s.treeTo (n + 2) p).AsRead)
    (hcontent : s.content? p = some c) : s.HoldsTokens p c := by
  rw [treeTo, hcontent] at h
  cases c with
  | scalar v =>
    cases h with
    | scalar _ hv => exact hv
  | array child =>
    cases h with
    | array _ hlabels _ =>
      intro i hi
      have hlabel := List.forall_mem_map.1 hlabels i hi
      rwa [label_treeTo] at hlabel
  | object child =>
    cases h with
    | object _ hlabels _ =>
      intro i hi
      have hlabel := List.forall_mem_map.1 hlabels i hi
      rwa [label_treeTo] at hlabel
  | reference target => cases h

theorem nesting_treeTo_pos {n : Nat} {c : Content} (hcontent : s.content? p = some c)
    (hcontainer : c.isContainer = true) : 0 < (s.treeTo (n + 1) p).nesting := by
  rw [treeTo, hcontent]
  cases c with
  | array | object => exact Nat.succ_pos _
  | scalar | reference => cases hcontainer

/-- Nodes that read as a tree of tokens, each where it stands below the root. -/
theorem Reads.readNode {maxDepth : Int} (r : s.Reads [root] ns [x]) (f : s.Forest [root] ns)
    (hnodup : ns.Nodup) (hx : x.AsRead) (hnesting : x.nesting ≤ maxDepth.toNat)
    (h : s.Enclosed root depth p) : s.ReadNode maxDepth depth p := by
  have hp : p ∈ ns := h.mem f hnodup (f.subset List.mem_cons_self)
  obtain ⟨hfirst, hlinks, -, -⟩ := f.children_of_mem hnodup hp
  have htree : (s.treeTo (JsonTree.nodeCounts [x] + 2) p).AsRead := by
    refine h.forall_treeTo (fun _ => JsonTree.AsRead.parts) (fun n hn => ?_) _
      (Nat.le_add_right _ 2)
    rwa [r.treeTo_eq hn]
  refine ⟨hfirst, hlinks, ?_, fun c hcontent hcontainer => ?_⟩
  · obtain ⟨content, hcontent⟩ := exists_content?_of_has (f.has p hp)
    exact ⟨content, hcontent, holdsTokens_of_asRead htree hcontent⟩
  · have hpos := nesting_treeTo_pos (n := JsonTree.nodeCounts [x]) hcontent hcontainer
    have hle := h.nesting_le (JsonTree.nodeCounts [x] + 1)
    rw [r.treeTo_eq (by omega)] at hle
    omega

/-- What is read into a store, over whatever arena, is the tree of a document. -/
theorem readTree_of_read {options : ReadOptions} {bytes : List UInt8} {stop : Nat}
    (h : s.read options bytes = (.ok (root, stop), t)) :
    t.ReadTree options bytes root ∧
      Document.read options none bytes = .ok ⟨t.tree root, stop⟩ := by
  obtain ⟨x, hdocument, ns, g, r, hlength⟩ := built_as_read h
  obtain ⟨before, v, after, hcontent, hv, hnesting⟩ := Document.exists_value_of_read hdocument
  have hx : x.AsRead := Document.asRead_of_read hdocument
  have htree := r.tree_eq g.forest g.nodup hlength
  replace hv : v.tree = x := hv
  subst hv
  obtain ⟨-, hprev, hnext⟩ := Linked.singleton_iff.1 g.linked
  refine ⟨⟨?_, hprev, hnext, ?_, fun depth p => ?_, before, v, after, hcontent, htree⟩,
    htree ▸ hdocument⟩
  · have hlabel := t.label_treeTo (JsonTree.nodeCounts [v.tree]) root
    rw [r.treeTo_eq (Nat.le_succ _), v.label_tree] at hlabel
    exact hlabel.symm
  · exact (g.forest.owned_perm g.nodup).nodup_iff.2 g.nodup
  · exact r.readNode g.forest g.nodup hx (v.nesting_tree ▸ hnesting)

end Store

/-! ## Writing again what was read -/

namespace Store

/-- The arena has no say in what a node reads as. -/
theorem treeTo_withArena (s : Store) (arena : Option Arena) (n : Nat) (id : NodeId) :
    (s.withArena arena).treeTo n id = s.treeTo n id := by
  induction n generalizing id with
  | zero => rfl
  | succ n ih =>
    have hchildren : (s.withArena arena).children id = s.children id :=
      (sameLinks_withArena s arena).children id
    rw [treeTo, treeTo, hchildren, funext ih]
    rfl

end Store

namespace Document

variable {options : ReadOptions} {bytes : List UInt8} {d : Document}

/-- What is read is written in either layout unless its text is too long for storage, and is read
again to the end of the text. -/
theorem print_again (h : Document.read options none bytes = .ok d) (pretty : Bool) {hint : Int}
    (budget : ByteBudget) (hhint : 0 ≤ hint ∧ hint ≤ greatestLength)
    (hbudget : budget.limit = none) :
    let printed := (d.tree.print ⟨pretty, hint, options.maxDepth⟩ budget).1
    ((∃ text, printed = .ok text) ↔ (d.tree.render pretty 0).length < greatestLength) ∧
    ∀ text, printed = .ok text → ∃ tree,
      Document.read ⟨true, options.maxDepth, none⟩ none (Utf8.encode text) =
        .ok ⟨tree, (Utf8.encode text).length⟩ := by
  refine ⟨⟨?_, exists_print_of_read h pretty budget hhint hbudget⟩, fun text htext => ?_⟩
  · rintro ⟨text, htext⟩
    exact JsonTree.length_render_lt_of_print htext
  · rw [(JsonTree.of_print htext).1]
    exact ⟨_, (asRead_of_read h).readable.read_render (bounds_of_read h).1 pretty⟩

end Document

namespace Session

/-- With the arena set aside, a tree is printed without a budget. -/
theorem print_withoutArena (options : WriteOptions) (id : NodeId) (s : Session) :
    (s.withoutArena (print options id)).1 = ((s.store.tree id).print options .unlimited).1 := by
  have htree : (s.store.withArena none).tree id = s.store.tree id :=
    s.store.treeTo_withArena none _ id
  rw [← htree]
  exact print_eq options id { s with store := s.store.withArena none }

/-- With the arena set aside, a document is read as `Document.read` reads it. -/
theorem exists_parse_withoutArena {options : ReadOptions} {bytes : List UInt8} {d : Document}
    (h : Document.read options none bytes = .ok d) (s : Session) :
    ∃ root t, s.withoutArena (parse options bytes) = (.ok (root, d.stop), t) := by
  rcases Store.read_eq options bytes (s := { s.store with arena := none }) rfl with
    ⟨root, stop, t, hread, hdocument⟩ | ⟨e, t, hread, hdocument⟩
  · rw [h] at hdocument
    cases hdocument
    unfold withoutArena parse
    simp only [hread]
    exact ⟨root, _, rfl⟩
  · rw [h] at hdocument
    cases hdocument

/-- **What a document that is read is sure to be.** Over whatever arena and from whatever state it
is read, it hangs from its root as the tree of a document: the root stands alone, chains are linked
in both directions in the order of the source, items have no names and members own theirs, and there
is no reference, nothing raw, no character 0, no NaN, no integer beside a number but that of its
double, and no container deeper than the limit.

So with the arena set aside it is printed in both layouts within the same limit, and the text is read
again to its end. Only a text longer than storage can be is not printed, and that takes a source
longer than the bound that is given. -/
theorem parse_guarantees {options : ReadOptions} {bytes : List UInt8} {s t : Session}
    {root : NodeId} {stop : Nat} (h : s.parse options bytes = (.ok (root, stop), t)) :
    t.store.ReadTree options bytes root ∧
    ∀ (pretty : Bool) (hint : Int), 0 ≤ hint ∧ hint ≤ greatestLength →
      let printed := (t.withoutArena (print ⟨pretty, hint, options.maxDepth⟩ root)).1
      ((∃ text, printed = .ok text) ↔
        ((t.store.tree root).render pretty 0).length < greatestLength) ∧
      ((2 * min options.maxDepth.toNat bytes.length + 63) * bytes.length < greatestLength →
        ∃ text, printed = .ok text) ∧
      ∀ text, printed = .ok text → ∀ u : Session, ∃ again v,
        u.withoutArena (parse ⟨true, options.maxDepth, none⟩ (Utf8.encode text)) =
          (.ok (again, (Utf8.encode text).length), v) := by
  have hread : s.store.read options bytes = (.ok (root, stop), t.store) := by
    obtain ⟨hresult, hstore⟩ := parse_eq options bytes s
    rw [h] at hresult hstore
    exact Prod.ext hresult.symm hstore.symm
  obtain ⟨htree, hdocument⟩ := Store.readTree_of_read hread
  refine ⟨htree, fun pretty hint hhint => ?_⟩
  obtain ⟨hprint, hagain⟩ :=
    Document.print_again hdocument pretty .unlimited hhint rfl
  intro printed
  have hprinted : printed = _ := print_withoutArena ⟨pretty, hint, options.maxDepth⟩ root t
  rw [hprinted]
  refine ⟨hprint, fun hbound => hprint.2 ?_, fun text htext u => ?_⟩
  · exact (Document.length_render_le_of_read hdocument pretty).trans_lt hbound
  · obtain ⟨tree, htext⟩ := hagain text htext
    exact exists_parse_withoutArena htext u

/-- An object with one member in an array, read over an arena with just enough nodes for it. -/
theorem parse_guarantees_member :
    ∃ t, (empty (some ⟨[], some 3, .unlimited⟩)).parse ⟨false, 2, none⟩
        (Utf8.encode "[\x7b\"a\":0\x7d]") = (.ok (2, 9), t) ∧
      t.store.ReadTree ⟨false, 2, none⟩ (Utf8.encode "[\x7b\"a\":0\x7d]") 2 ∧
      (t.withoutArena (print ⟨true, 0, 2⟩ 2)).1 = .ok "[\x7b\n\t\t\"a\":\t0\n\t\x7d]" ∧
      ∃ again v, (empty none).withoutArena
        (parse ⟨true, 2, none⟩ (Utf8.encode "[\x7b\n\t\t\"a\":\t0\n\t\x7d]")) =
          (.ok (again, 15), v) := by
  have hresult : ((empty (some ⟨[], some 3, .unlimited⟩)).parse ⟨false, 2, none⟩
      (Utf8.encode "[\x7b\"a\":0\x7d]")).1 = .ok (2, 9) := by
    decide +kernel
  have hprint : (((empty (some ⟨[], some 3, .unlimited⟩)).parse ⟨false, 2, none⟩
      (Utf8.encode "[\x7b\"a\":0\x7d]")).2.withoutArena (print ⟨true, 0, 2⟩ 2)).1 =
      .ok "[\x7b\n\t\t\"a\":\t0\n\t\x7d]" :=
    eq_ok_of_toOption (by decide +kernel)
  have hlength : (Utf8.encode "[\x7b\n\t\t\"a\":\t0\n\t\x7d]").length = 15 := by
    decide +kernel
  rcases hparse : (empty (some ⟨[], some 3, .unlimited⟩)).parse ⟨false, 2, none⟩
    (Utf8.encode "[\x7b\"a\":0\x7d]") with ⟨result, t⟩
  rw [hparse] at hresult hprint
  subst hresult
  obtain ⟨htree, hguarantees⟩ := parse_guarantees hparse
  obtain ⟨-, -, hagain⟩ := hguarantees true 0 ⟨Int.le_refl 0, Int.natCast_nonneg _⟩
  have hagain := hagain _ hprint (empty none)
  rw [hlength] at hagain
  exact ⟨t, rfl, htree, hprint, hagain⟩

end Session

end LinkedJson
