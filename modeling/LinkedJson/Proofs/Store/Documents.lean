import LinkedJson.Proofs.Grammar.StrictReading
import LinkedJson.Proofs.Reading.Agreement
import LinkedJson.Proofs.Store.Budget
import LinkedJson.Proofs.Store.Copies
import LinkedJson.Proofs.Writing.Reprinting

/-!
# Documents in a store

A store without an arena refuses no nodes, and then a document is read into it as `Document.read`
reads it: what hangs from the new root is the same tree and ends at the same offset, or both fail in
the same way (`Store.read_eq`). The steps of the two builders are compared one by one
(`Store.builder_mirrors`), and the reading of the text is the same for both. With an arena the same
cells are written, if it refuses none (`Store.built_as_read`).

So what holds of `Document.read` holds of a session without an arena: printing what was read is
`reprint`, and a strict text is read with its standard meaning (`Session.parse_strict`).
-/

namespace LinkedJson

namespace Store

variable {s t u : Store} {id : NodeId} {ids ns : List NodeId} {ts : List JsonTree} {x : JsonTree}

/-! ## Steps of reading -/

/-- The tree under a node with another label; the node does not hang from itself. -/
theorem Forest.treeTo_setLabel (f : t.Forest [id] ns) (hnodup : ns.Nodup)
    (hplain : ∀ i ∈ ns, ∀ target, t.content? i ≠ some (.reference target)) (l : Label) (n : Nat) :
    (t.setLabel id l).treeTo (n + 1) id = (t.treeTo (n + 1) id).withLabel l := by
  cases f with
  | @cons _ _ kids below after hhas hhead hlinked fbelow fafter =>
    cases fafter
    obtain ⟨hbelow, -, hdisjoint⟩ := List.nodup_append.1 hnodup
    have hne : ∀ i ∈ below, id ≠ i := fun i hi heq => hdisjoint i hi id List.mem_cons_self heq.symm
    have hagree : Agree t (t.setLabel id l) kids below :=
      { has := fun i hi => (has_modify ..).2 (fbelow.has i hi)
        content := fun i _ => content?_setLabel ..
        label := fun i hi => by rw [label_setLabel, if_neg fun h => hne i hi h.1]
        prev := fun i _ _ => prev?_setLabel ..
        next := fun i _ _ => next?_setLabel .. }
    have hchildren : t.children id = kids := children_eq hlinked hhead
    have hchildren' : (t.setLabel id l).children id = kids := by
      refine children_eq (hlinked.congr (fun i hi => hagree.has i (fbelow.subset hi))
        (fun i _ => prev?_setLabel ..) fun i _ => next?_setLabel ..) ?_
      rw [child?_setLabel, hhead]
    have hkids : kids.map ((t.setLabel id l).treeTo n) = kids.map (t.treeTo n) :=
      List.map_congr_left fun i hi => fbelow.treeTo_agree hbelow
        (fun i hi => hplain i (List.mem_append_left _ hi)) hagree n i (fbelow.subset hi)
    have hlabel : (t.setLabel id l).label id = l := by
      rw [label_setLabel, if_pos ⟨rfl, hhas⟩]
    obtain ⟨content, hcontent⟩ := exists_content?_of_has hhas
    rw [treeTo, treeTo, content?_setLabel, hlabel, hchildren, hchildren', hkids, hcontent]
    cases content with
    | reference target =>
      exact absurd hcontent (hplain id (List.mem_append_right _ List.mem_cons_self) target)
    | _ => rfl

namespace Reads

/-- A new node is read as what its content makes of the siblings that it takes in. -/
theorem create {content : Content} (r : t.Reads ids ns ts) (g : Grown s t ids ns)
    (hplain : ∀ target, content ≠ .reference target) (hchild : content.child? = ids.head?)
    (hcreate : t.create? content = some (id, u)) (hcount : x.nodeCount = JsonTree.nodeCounts ts + 1)
    (hread : ∀ n, u.content? id = some content → u.label id = .none →
      (u.children id).map (u.treeTo n) = ts → u.treeTo (n + 1) id = x) :
    u.Reads [id] (ns ++ [id]) [x] := by
  obtain ⟨-, rfl, rfl⟩ := create?_eq_some_iff.1 hcreate
  have hcell : (t.adopt (.standalone content)).cells[t.cells.size]? =
      some (.standalone content) := by
    rw [getElem?_adopt, if_pos rfl]
  have hcontent : (t.adopt (.standalone content)).content? t.cells.size = some content := by
    rw [content?, hcell]
    rfl
  have hlabel : (t.adopt (.standalone content)).label t.cells.size = .none := by
    rw [label, hcell]
    rfl
  have hkeeps := t.extends_adopt (.standalone content)
  have r' := r.agree g.forest g.nodup (hkeeps.agree g.forest.has)
  have hlinked := g.linked.of_cells fun i hi => hkeeps.cell (g.linked.has i hi)
  have hchildren : (t.adopt (.standalone content)).children t.cells.size = ids := by
    refine children_eq hlinked ?_
    rw [child?, hcontent]
    exact hchild
  refine r'.root hcontent hplain hcount fun n hkids => hread n hcontent hlabel ?_
  rw [hchildren, hkids]

/-- A label is given to the root alone. -/
theorem setLabel (r : t.Reads [id] ns [x]) (f : t.Forest [id] ns) (hnodup : ns.Nodup) (l : Label) :
    (t.setLabel id l).Reads [id] ns [x.withLabel l] := by
  refine ⟨fun i hi target => ?_, fun n hn => ?_⟩
  · rw [content?_setLabel]
    exact r.plain i hi target
  · rw [JsonTree.nodeCounts, JsonTree.nodeCounts, JsonTree.nodeCount_withLabel] at hn
    have hpos := x.nodeCount_pos
    obtain ⟨n, rfl⟩ : ∃ m, n = m + 1 := Nat.exists_eq_add_one.2 (by omega)
    have hx := r.trees (n + 1) hn
    rw [List.map_singleton, List.singleton_inj] at hx
    rw [List.map_singleton, f.treeTo_setLabel hnodup r.plain, hx]

end Reads

/-- A new node that takes in siblings, or a node without parts. -/
theorem built_as_create (content : Content) (x : JsonTree) {chain : OpenChain}
    (hheap : t.arena = none) (h : BuiltChainAs s ts (some chain, t))
    (hplain : ∀ target, content ≠ .reference target)
    (hchild : content.child? = chain.head) (hcount : x.nodeCount = JsonTree.nodeCounts ts + 1)
    (hread : ∀ (v : Store) (id : NodeId) (n : Nat), v.content? id = some content →
      v.label id = .none → (v.children id).map (v.treeTo n) = ts → v.treeTo (n + 1) id = x) :
    ∃ id u, t.create? content = some (id, u) ∧ BuiltAs s x (some id, u) := by
  obtain ⟨ids, ns, rfl, g, r, hlength⟩ := h
  have hcreate := create?_of_heap hheap content
  refine ⟨_, _, hcreate, ns ++ [t.cells.size], g.create hchild hcreate, ?_, ?_⟩
  · exact r.create g hplain hchild hcreate hcount fun n => hread _ _ n
  · rw [List.length_append, List.length_singleton, hlength, hcount]

theorem Grown.arena_eq_none (g : Grown s t ids ns) (hheap : s.arena = none) : t.arena = none := by
  obtain ⟨taken, -, harena⟩ := g.taken
  rw [harena, hheap]
  rfl

/-- Without an arena, nodes that are taken from the store stand for the trees that they read as. -/
theorem builder_mirrors :
    builder.Mirrors (JsonTree.builder none) (fun s => s.arena = none)
      (fun s t id x => BuiltAs s x (some id, t))
      (fun s t chain xs => BuiltChainAs s xs.reverse (some chain, t)) where
  ready_of_open := by
    rintro s t chain xs hheap ⟨ids, ns, -, g, -, -⟩
    exact g.arena_eq_none hheap
  childless {s} _ := ⟨[], [], rfl, .refl s, .nil s, rfl⟩
  scalar {s} v built hheap := by
    obtain ⟨id, t, h, hbuilt⟩ := built_as_create (.scalar v) (.scalar .none v) hheap
      ⟨[], [], rfl, .refl s, .nil s, rfl⟩ (fun _ h => nomatch h) rfl rfl
      (fun w id n hcontent hlabel _ => by rw [treeTo, hcontent, hlabel])
    exact ⟨id, t, _, built + 1, h, rfl, hbuilt⟩
  array {s t chain xs} built hheap hopen := by
    obtain ⟨id, u, h, hbuilt⟩ := built_as_create (.array chain.head) (.array .none xs.reverse)
      hheap hopen (fun _ h => nomatch h) rfl rfl
      (fun w id n hcontent hlabel hkids => by rw [treeTo, hcontent, hlabel, ← hkids])
    exact ⟨id, u, _, built + 1, h, rfl, hbuilt⟩
  object {s t chain xs} built hheap hopen := by
    obtain ⟨id, u, h, hbuilt⟩ := built_as_create (.object chain.head) (.object .none xs.reverse)
      hheap hopen (fun _ h => nomatch h) rfl rfl
      (fun w id n hcontent hlabel hkids => by rw [treeTo, hcontent, hlabel, ← hkids])
    exact ⟨id, u, _, built + 1, h, rfl, hbuilt⟩
  push {s t u chain xs id x} built hopen hdone := by
    obtain ⟨ids, ns, rfl, g, r, hlength⟩ := hopen
    obtain ⟨ms, g', r', hms⟩ := hdone
    refine ⟨ids ++ [id], ns ++ ms, OpenChain.push_fst ids id u, g.push g', ?_, ?_⟩
    · show Reads _ _ _ (x :: xs).reverse
      rw [List.reverse_cons]
      exact r.push g r' g'
    · show _ = JsonTree.nodeCounts (x :: xs).reverse
      rw [List.reverse_cons, JsonTree.nodeCounts_append, List.length_append, hlength, hms]
      rfl
  rename {s t id x} name built hdone := by
    obtain ⟨ns, g, r, hlength⟩ := hdone
    have hid : ¬ s.Has id := g.fresh id (g.forest.subset List.mem_cons_self)
    refine ⟨ns, g.setLabel _ hid, r.setLabel g.forest g.nodup _, ?_⟩
    rw [hlength]
    exact (x.nodeCount_withLabel _).symm

/-! ## Whole documents -/

/-- Without an arena a document is read into the store as the tree that `Document.read` gives, or
fails in the same way. -/
theorem read_eq (options : ReadOptions) (bytes : List UInt8) {s : Store} (hheap : s.arena = none) :
    (∃ root stop t, s.read options bytes = (.ok (root, stop), t) ∧
        Document.read options none bytes = .ok ⟨t.tree root, stop⟩) ∨
      ∃ e t, s.read options bytes = (.error e, t) ∧ Document.read options none bytes = .error e := by
  unfold Document.read
  rcases Builder.read_alike builder_mirrors options bytes 0 hheap with
    ⟨root, x, stop, t, built, h, h', ns, g, r, hlength⟩ | ⟨e, t, built, h, h'⟩
  · refine .inl ⟨root, stop, t, h, ?_⟩
    rw [h', r.tree_eq g.forest g.nodup hlength]
    rfl
  · refine .inr ⟨e, t, h, ?_⟩
    rw [h']
    rfl

/-- Stores with the same cells read the same from siblings. -/
theorem Reads.of_cells (r : s.Reads ids ns ts) (f : s.Forest ids ns) (hnodup : ns.Nodup)
    (hcells : t.cells = s.cells) : t.Reads ids ns ts := by
  have hextends : s.Extends t :=
    ⟨fun hi => by rwa [Has, hcells], fun _ => by rw [hcells]⟩
  exact r.agree f hnodup (hextends.agree f.has)

/-- Whatever the arena is, what is read into a store is the tree that `Document.read` gives. -/
theorem built_as_read {options : ReadOptions} {bytes : List UInt8} {root : NodeId} {stop : Nat}
    (h : s.read options bytes = (.ok (root, stop), t)) :
    ∃ x, Document.read options none bytes = .ok ⟨x, stop⟩ ∧ BuiltAs s x (some root, t) := by
  obtain ⟨⟨ns, g⟩, -⟩ := read_ok h
  obtain ⟨cells, arena⟩ := s
  -- without an arena the same cells are written, and their reading is compared step by step
  have hcells : ∃ u, read options bytes ⟨cells, none⟩ = (.ok (root, stop), u) ∧
      t.cells = u.cells := by
    cases arena with
    | none => exact ⟨t, h, rfl⟩
    | some a =>
      rcases read_withArena options bytes ⟨cells, none⟩ rfl a with
        ⟨hresult, hsame, -⟩ | ⟨_, -, _, -, hrefused⟩
      · rw [withArena, h] at hresult hsame
        exact ⟨(read options bytes ⟨cells, none⟩).2, Prod.ext hresult.symm rfl, hsame⟩
      · rw [withArena, h] at hrefused
        cases hrefused
  obtain ⟨u, hu, hcells⟩ := hcells
  rcases Builder.read_alike builder_mirrors options bytes 0 (s := ⟨cells, none⟩) rfl with
    ⟨root', x, stop', u', built, hread, htree, ms, g', r, hlength⟩ | ⟨e, u', built, hread, -⟩
  · obtain ⟨⟨rfl, rfl⟩, rfl⟩ : (root' = root ∧ stop' = stop) ∧ u' = u := by
      simpa using hread.symm.trans hu
    have r' : t.Reads [root'] ms [x] := r.of_cells g'.forest g'.nodup hcells
    have f' : t.Forest [root'] ms := g'.forest.of_cells g'.nodup fun i _ => by rw [hcells]
    have hperm : ns.Perm ms :=
      (g.forest.owned_perm g.nodup).symm.trans (f'.owned_perm g'.nodup)
    refine ⟨x, ?_, ns, g, ⟨fun i hi => r'.plain i (hperm.subset hi), r'.trees⟩,
      hperm.length_eq.trans hlength⟩
    rw [Document.read, htree]
    rfl
  · cases hread.symm.trans hu

end Store

namespace Session

variable {s : Session}

/-- Only a failure is reported; the result is that of the tree under the byte budget of the store. -/
theorem print_eq (options : WriteOptions) (id : NodeId) (s : Session) :
    (s.print options id).1 = ((s.store.tree id).print options s.store.bytes).1 := by
  unfold print Store.print
  rcases (s.store.tree id).print options s.store.bytes with ⟨e | text, bytes⟩ <;> rfl

/-- In a session without an arena, printing what was read of a text is `reprint`. -/
theorem print_parse (bytes : List UInt8) (hheap : s.store.arena = none) :
    (match s.parse {} bytes with
      | (.ok (root, _), t) => (t.print { pretty := false } root).1.toOption.map Utf8.encode
      | (.error _, _) => none) = reprint bytes := by
  unfold parse reprint
  rcases Store.read_eq {} bytes hheap with ⟨root, stop, t, h, h'⟩ | ⟨e, t, h, h'⟩
  · obtain ⟨⟨ns, g⟩, -⟩ := Store.read_ok h
    have hbytes : t.bytes = .unlimited := by
      rw [Store.bytes, g.arena_eq_none hheap]
      rfl
    have hprint := print_eq { pretty := false } root { s with store := t }
    rw [show ({ s with store := t } : Session).store.bytes = .unlimited from hbytes] at hprint
    rw [h, h']
    exact congrArg (fun r => r.toOption.map Utf8.encode) hprint
  · rw [h, h']
    rfl

/-- **Strict text is read with its standard meaning.** In a session without an arena, a text of the
strict grammar without a zero or an unpaired surrogate among its escapes, whose containers nest no
deeper than the limit, is read to its end, and the new root has the one tree that the text denotes.
-/
theorem parse_strict (options : ReadOptions) (d : Strict.Text) (s : Session)
    (hheap : s.store.arena = none) (hwhole : options.whole = true)
    (hlength : ∀ limit ∈ options.maxLength, (d.bytes.length : Int) ≤ limit)
    (hpaired : ∀ items ∈ d.value.strings, Strict.Paired items)
    (hdepth : (d.value.nesting : Int) ≤ options.maxDepth) :
    ∃ root t, s.parse options d.bytes = (.ok (root, d.bytes.length), t) ∧
      ∀ u, d.value.Denotes u ↔ u = t.store.tree root := by
  obtain ⟨x, hdenotes, hread⟩ := Document.read_strict options d hwhole hlength hpaired hdepth
  rcases Store.read_eq options d.bytes hheap with ⟨root, stop, t, h, h'⟩ | ⟨e, t, h, h'⟩
  · rw [hread] at h'
    obtain ⟨rfl, rfl⟩ := Document.mk.inj (Except.ok.inj h')
    refine ⟨root, { s with store := t }, ?_, hdenotes⟩
    unfold parse
    rw [h]
  · rw [hread] at h'
    cases h'

/-- A number, and a character that is escaped as a pair of surrogates in either case of the digits.
-/
theorem parse_strict_surrogate_pair :
    ∃ root t,
      (Session.empty none).parse ⟨true, 1, none⟩ (Utf8.encode "[-0, \"\\uD83d\\ude00\"]") =
        (.ok (root, 20), t) ∧
      t.store.tree root = .array .none
        [.scalar .none (.number (.ofDouble (.finite (FiniteDouble.zero true)))),
          .scalar .none (.string "😀")] := by
  let number : Strict.Number :=
    ⟨⟨true, [Ascii.zero], none, none, List.all_eq_true.1 rfl, List.all_eq_true.1 rfl, by decide⟩,
      by decide, .inl rfl, fun _ h => nomatch h⟩
  let high : List UInt8 := [0x44, 0x38, 0x33, 0x64]
  let low : List UInt8 := [0x64, 0x65, 0x30, 0x30]
  let string : List Strict.StringItem :=
    [.code high ⟨rfl, List.all_eq_true.1 rfl⟩, .code low ⟨rfl, List.all_eq_true.1 rfl⟩]
  let text : Strict.Text := ⟨.none, .array (.more .none (.number number) .none
    (.last ⟨[0x20], by simp⟩ (.string string) .none)), .none⟩
  have hpaired : Strict.Paired string := by
    constructor
    · rintro (_ | _ | i) hunit
      · exact absurd hunit (by decide)
      · exact absurd hunit (by decide)
      · cases hunit
    · rintro (_ | _ | i) unit hunit hhigh
      · exact ⟨_, rfl, by decide⟩
      · cases hunit
        exact absurd hhigh (by decide)
      · cases hunit
    · rintro (_ | _ | i) unit hunit hlow
      · cases hunit
        exact absurd hlow (by decide)
      · exact ⟨0, rfl, _, rfl, by decide⟩
      · cases hunit
  obtain ⟨root, t, hread, hdenotes⟩ := parse_strict ⟨true, 1, none⟩ text (Session.empty none) rfl rfl
    (fun _ h => nomatch h)
    (by simpa [text, Strict.Value.strings, Strict.Items.strings] using hpaired) (by decide)
  have hnumber : number.decimal.toDouble = .finite (FiniteDouble.zero true) := by decide +kernel
  refine ⟨root, t, hread, ((hdenotes _).1 ?_).symm⟩
  exact .array (.more (.number (hnumber ▸ number.rounds_toDouble))
    (.last (.string (.pair (c := '😀') (by decide) (by decide) (by decide) .nil))))

end Session

end LinkedJson
