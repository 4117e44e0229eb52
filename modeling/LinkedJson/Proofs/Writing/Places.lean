import LinkedJson.Proofs.Writing.Pieces

/-!
# The nodes that a writer comes to

`JsonTree.places` lists the nodes of a tree in the order in which a writer comes to them, a
reference standing for its target. A place knows the number of containers around its node and the
text in front of it, and that text, the text of the node and some rest make up the text of the tree
(`JsonTree.render_eq_of_mem_places`). The first fault among the pieces of a tree is that of the
first place with a fault, after the text in front of that place (`JsonTree.findSome?_places`).
-/

namespace LinkedJson

/-- A node inside a tree. -/
structure Place where
  /-- The number of containers around the node. -/
  depth : Nat
  /-- The text of the tree in front of the node. -/
  before : List UInt8
  node : JsonTree

namespace Place

/-- Why the node at a place is not written: a container stands inside too many others, or raw text
holds the code unit 0. -/
def fault? (maxDepth : Int) (p : Place) : Option WriteFault :=
  match p.node with
  | .array .. | .object .. => if maxDepth ≤ p.depth then some (.nestingTooDeep maxDepth) else none
  | .scalar _ (.raw text) => if 0 ∈ text.units then some .rawHoldsNul else none
  | _ => none

/-- The fault at a place, with the text in front of it. -/
def report (maxDepth : Int) (p : Place) : Option (WriteFault × List UInt8) :=
  (p.fault? maxDepth).map (·, p.before)

end Place

namespace JsonTree

mutual

/-- The places of a tree that stands inside `depth` containers after the text `before`. -/
def places (pretty : Bool) (depth : Nat) (before : List UInt8) : JsonTree → List Place
  | scalar l v => [⟨depth, before, scalar l v⟩]
  | array l ts =>
    ⟨depth, before, array l ts⟩ :: itemPlaces pretty (depth + 1) (before ++ Utf8.encode "[") ts
  | object l ts =>
    ⟨depth, before, object l ts⟩ ::
      memberPlaces pretty (depth + 1) (before ++ Layout.objectStart pretty) ts
  | reference _ target => target.places pretty depth before

def itemPlaces (pretty : Bool) (depth : Nat) (before : List UInt8) : List JsonTree → List Place
  | [] => []
  | t :: ts =>
    t.places pretty depth before ++
      itemPlaces pretty depth
        (before ++ (t.render pretty depth ++
          (if ts.isEmpty then [] else Layout.itemSeparator pretty))) ts

def memberPlaces (pretty : Bool) (depth : Nat) (before : List UInt8) : List JsonTree → List Place
  | [] => []
  | t :: ts =>
    t.places pretty depth
        (before ++ (Layout.memberIndent pretty depth ++
          (StringLiteral.literal (t.label.key.getD "") ++ Layout.nameSeparator pretty))) ++
      memberPlaces pretty depth
        (before ++ (Layout.memberIndent pretty depth ++
          (StringLiteral.literal (t.label.key.getD "") ++ (Layout.nameSeparator pretty ++
            (t.render pretty depth ++ Layout.memberEnd pretty ts.isEmpty))))) ts

end

/-! ## The text around a place -/

variable {pretty : Bool} {p : Place}

mutual

/-- The text in front of a place, the text of its node and some rest make up the whole text. -/
theorem render_eq_of_mem_places {depth : Nat} {before : List UInt8} :
    ∀ t : JsonTree, p ∈ t.places pretty depth before →
      ∃ after, before ++ t.render pretty depth =
        p.before ++ (p.node.render pretty p.depth ++ after)
  | scalar _ _, h => by
    rw [places] at h
    obtain rfl := List.mem_singleton.1 h
    exact ⟨[], by rw [List.append_nil]⟩
  | array _ [], h => by
    rw [places, itemPlaces] at h
    obtain rfl := List.mem_singleton.1 h
    exact ⟨[], by rw [List.append_nil]⟩
  | array _ (t :: ts), h => by
    rw [places] at h
    rcases List.mem_cons.1 h with rfl | h
    · exact ⟨[], by rw [List.append_nil]⟩
    · obtain ⟨after, hafter⟩ := renderItems_eq_of_mem_itemPlaces (t :: ts) h
      refine ⟨after ++ Utf8.encode "]", ?_⟩
      rw [render, ← List.append_assoc, ← List.append_assoc, hafter]
      simp only [List.append_assoc]
  | object _ [], h => by
    rw [places, memberPlaces] at h
    obtain rfl := List.mem_singleton.1 h
    exact ⟨[], by rw [List.append_nil]⟩
  | object _ (t :: ts), h => by
    rw [places] at h
    rcases List.mem_cons.1 h with rfl | h
    · exact ⟨[], by rw [List.append_nil]⟩
    · obtain ⟨after, hafter⟩ := renderMembers_eq_of_mem_memberPlaces (t :: ts) h
      refine ⟨after ++ Layout.objectEnd pretty depth, ?_⟩
      rw [render, ← List.append_assoc, ← List.append_assoc, hafter]
      simp only [List.append_assoc]
  | reference _ target, h => render_eq_of_mem_places target h

theorem renderItems_eq_of_mem_itemPlaces {depth : Nat} {before : List UInt8} :
    ∀ ts : List JsonTree, p ∈ itemPlaces pretty depth before ts →
      ∃ after, before ++ renderItems pretty depth ts =
        p.before ++ (p.node.render pretty p.depth ++ after)
  | [], h => nomatch h
  | t :: ts, h => by
    rw [itemPlaces] at h
    rw [renderItems]
    rcases List.mem_append.1 h with h | h
    · obtain ⟨after, hafter⟩ := render_eq_of_mem_places t h
      refine ⟨after ++ ((if ts.isEmpty then [] else Layout.itemSeparator pretty) ++
        renderItems pretty depth ts), ?_⟩
      rw [List.append_assoc, ← List.append_assoc, hafter]
      simp only [List.append_assoc]
    · obtain ⟨after, hafter⟩ := renderItems_eq_of_mem_itemPlaces ts h
      exact ⟨after, by rw [← hafter, ← List.append_assoc]⟩

theorem renderMembers_eq_of_mem_memberPlaces {depth : Nat} {before : List UInt8} :
    ∀ ts : List JsonTree, p ∈ memberPlaces pretty depth before ts →
      ∃ after, before ++ renderMembers pretty depth ts =
        p.before ++ (p.node.render pretty p.depth ++ after)
  | [], h => nomatch h
  | t :: ts, h => by
    rw [memberPlaces] at h
    rw [renderMembers]
    rcases List.mem_append.1 h with h | h
    · obtain ⟨after, hafter⟩ := render_eq_of_mem_places t h
      refine ⟨after ++ (Layout.memberEnd pretty ts.isEmpty ++ renderMembers pretty depth ts), ?_⟩
      rw [← List.append_assoc (p.node.render ..), ← List.append_assoc p.before, ← hafter]
      simp only [List.append_assoc]
    · obtain ⟨after, hafter⟩ := renderMembers_eq_of_mem_memberPlaces ts h
      refine ⟨after, ?_⟩
      rw [← hafter]
      simp only [List.append_assoc]

end

end JsonTree

/-! ## The first fault -/

namespace Piece

/-- The first fault, with the text in front of it. -/
def report (before : List UInt8) (ps : List Piece) : Option (WriteFault × List UInt8) :=
  (fault? ps).map (·, before ++ written ps)

theorem report_eq_none_iff {before : List UInt8} {ps : List Piece} :
    report before ps = none ↔ fault? ps = none :=
  Option.map_eq_none_iff

theorem report_eq_some_iff {before text : List UInt8} {ps : List Piece} {f : WriteFault} :
    report before ps = some (f, text) ↔ fault? ps = some f ∧ before ++ written ps = text := by
  rw [report, Option.map_eq_some_iff]
  constructor
  · rintro ⟨f, hf, heq⟩
    cases heq
    exact ⟨hf, rfl⟩
  · rintro ⟨hf, rfl⟩
    exact ⟨f, hf, rfl⟩

theorem report_text (before bytes : List UInt8) (ps : List Piece) :
    report before (.text bytes :: ps) = report (before ++ bytes) ps := by
  rw [report, report, fault?, written, List.append_assoc]

theorem report_ofSome (before text : List UInt8) (ps : List Piece) :
    report before (ofSome text ++ ps) = report (before ++ text) ps := by
  unfold ofSome
  split
  · rename_i h
    rw [List.isEmpty_iff.1 h, List.append_nil, List.nil_append]
  · exact report_text before text ps

/-- Of two runs of pieces the first one has the say; the text in front of the second one matters
only if the first one holds no fault. -/
theorem report_append {before mid : List UInt8} {ps : List Piece}
    (h : fault? ps = none → before ++ written ps = mid) (qs : List Piece) :
    report before (ps ++ qs) = (report before ps).or (report mid qs) := by
  rw [report, report, report, fault?_append]
  cases hps : fault? ps with
  | some f => rw [written_append_of_some hps]; rfl
  | none => rw [written_append_of_none hps, ← List.append_assoc, h hps]; rfl

end Piece

namespace JsonTree

theorem report_scalar (maxDepth : Int) (depth : Nat) (before : List UInt8) (l : Label) (v : Scalar) :
    Place.report maxDepth ⟨depth, before, scalar l v⟩ = Piece.report before [v.piece] := by
  cases v with
  | raw text =>
    have hzero : text.encode.contains 0 = true ↔ 0 ∈ text.units := by
      rw [List.contains_iff_mem, WideString.zero_mem_encode_iff]
    have hfault : Place.fault? maxDepth ⟨depth, before, scalar l (.raw text)⟩ =
      if 0 ∈ text.units then some .rawHoldsNul else none := rfl
    rw [Place.report, hfault, Scalar.piece]
    by_cases h : 0 ∈ text.units
    · rw [if_pos h, if_pos (hzero.2 h)]
      exact (Piece.report_eq_some_iff.2 ⟨rfl, List.append_nil before⟩).symm
    · rw [if_neg h, if_neg (mt hzero.1 h)]
      rfl
  | _ => rfl

mutual

/-- **The first place with a fault is where the pieces of a tree hold their first fault.** -/
theorem findSome?_places (options : WriteOptions) (depth : Nat) (before : List UInt8) :
    ∀ t : JsonTree, (t.places options.pretty depth before).findSome? (Place.report options.maxDepth) =
      Piece.report before (t.pieces options depth)
  | scalar l v => by
    rw [places, pieces, List.findSome?_singleton]
    exact report_scalar _ depth before l v
  | array l ts => by
    rw [places, pieces, List.findSome?_cons, Place.report, Place.fault?]
    by_cases hdepth : options.maxDepth ≤ depth
    · simp [hdepth, Piece.report, Piece.fault?, Piece.written]
    · rw [if_neg hdepth, if_neg hdepth, Option.map_none, findSome?_itemPlaces]
      cases ts with
      | nil => rfl
      | cons t ts =>
        rw [List.isEmpty_cons, if_neg Bool.false_ne_true, Piece.report_text,
          Piece.report_append fun _ => rfl]
        exact (Option.or_none).symm
  | object l ts => by
    rw [places, pieces, List.findSome?_cons, Place.report, Place.fault?]
    by_cases hdepth : options.maxDepth ≤ depth
    · simp [hdepth, Piece.report, Piece.fault?, Piece.written]
    · rw [if_neg hdepth, if_neg hdepth, Option.map_none, findSome?_memberPlaces]
      cases ts with
      | nil => rfl
      | cons t ts =>
        rw [List.isEmpty_cons, if_neg Bool.false_ne_true, Piece.report_text,
          Piece.report_append fun _ => rfl]
        exact (Option.or_none).symm
  | reference _ target => findSome?_places options depth before target

theorem findSome?_itemPlaces (options : WriteOptions) (depth : Nat) (before : List UInt8) :
    ∀ ts : List JsonTree,
      (itemPlaces options.pretty depth before ts).findSome? (Place.report options.maxDepth) =
        Piece.report before (itemPieces options depth ts)
  | [] => rfl
  | t :: ts => by
    have htext (h : Piece.fault? (t.pieces options depth) = none) :
        before ++ Piece.written (t.pieces options depth) =
          before ++ t.render options.pretty depth := by
      rw [written_pieces options depth t h]
    rw [itemPlaces, itemPieces, List.findSome?_append, findSome?_places, findSome?_itemPlaces,
      Piece.report_append htext, Piece.report_ofSome, List.append_assoc]

theorem findSome?_memberPlaces (options : WriteOptions) (depth : Nat) (before : List UInt8) :
    ∀ ts : List JsonTree,
      (memberPlaces options.pretty depth before ts).findSome? (Place.report options.maxDepth) =
        Piece.report before (memberPieces options depth ts)
  | [] => rfl
  | t :: ts => by
    rw [memberPlaces, memberPieces, List.findSome?_append, findSome?_places, findSome?_memberPlaces,
      Piece.report_ofSome, Piece.report_text, Piece.report_text, Piece.report_append fun h => by
        rw [written_pieces options depth t h], Piece.report_ofSome]
    simp only [List.append_assoc]

end

/-- A tree without a faulty place has pieces without a fault. -/
theorem fault?_pieces_eq_none_iff {options : WriteOptions} {t : JsonTree} :
    Piece.fault? (t.pieces options 0) = none ↔
      ∀ p ∈ t.places options.pretty 0 [], p.fault? options.maxDepth = none := by
  rw [← @Piece.report_eq_none_iff [], ← findSome?_places, List.findSome?_eq_none_iff]
  simp [Place.report]

/-- The first faulty place of a tree gives the first fault, and the text in front of it is written.
-/
theorem fault?_pieces_of_places {options : WriteOptions} {t : JsonTree} {front rest : List Place}
    {f : WriteFault} (hplaces : t.places options.pretty 0 [] = front ++ p :: rest)
    (hfront : ∀ q ∈ front, q.fault? options.maxDepth = none)
    (hfault : p.fault? options.maxDepth = some f) :
    Piece.fault? (t.pieces options 0) = some f ∧ Piece.written (t.pieces options 0) = p.before := by
  have hreport : (t.places options.pretty 0 []).findSome? (Place.report options.maxDepth) =
      some (f, p.before) := by
    refine List.findSome?_eq_some_iff.2 ⟨front, p, rest, hplaces, ?_, fun q hq => ?_⟩
    · rw [Place.report, hfault]
      rfl
    · rw [Place.report, hfront q hq]
      rfl
  rw [findSome?_places] at hreport
  exact Piece.report_eq_some_iff.1 hreport

end JsonTree

end LinkedJson
