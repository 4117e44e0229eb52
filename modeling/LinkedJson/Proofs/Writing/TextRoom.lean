import LinkedJson.Proofs.Number.TextLength
import LinkedJson.Proofs.Writing.ReadTrees

/-!
# Room for a text

The compact text of a tree takes at most the room that its parts may need (`JsonTree.room`), and for
a tree that is read that is at most 61 bytes for each byte of the source. The pretty layout adds
blanks, line feeds and tabs: for each node at most twice as many as lines are indented, and two more
(`JsonTree.length_render_le_indented`).
-/

namespace LinkedJson

/-- The most bytes that the text of a value may take, here and in its normal form. -/
def Scalar.room : Scalar → Nat
  | .number _ => 61
  | v => v.render.length

theorem Scalar.length_render_le (v : Scalar) : v.render.length ≤ v.room := by
  cases v with
  | number n => exact n.length_text_le
  | _ => exact Nat.le_refl _

namespace JsonTree

mutual

/-- The most bytes that the compact text of a tree may take. -/
def room : JsonTree → Nat
  | scalar _ v => v.room
  | array _ ts => roomOfItems ts + 2
  | object _ ts => roomOfMembers ts + 2
  | reference _ target => target.room

/-- The room of items with a comma behind each. -/
def roomOfItems : List JsonTree → Nat
  | [] => 0
  | t :: ts => t.room + 1 + roomOfItems ts

/-- The room of members with their names, a colon and a comma behind each. -/
def roomOfMembers : List JsonTree → Nat
  | [] => 0
  | t :: ts =>
    (StringLiteral.literal (t.label.key.getD "")).length + 1 + t.room + 1 + roomOfMembers ts

end

theorem room_withLabel (l : Label) (t : JsonTree) : (t.withLabel l).room = t.room := by
  cases t <;> rfl

theorem length_memberEnd_le (isLast : Bool) : (Layout.memberEnd false isLast).length ≤ 1 := by
  cases isLast <;> decide

mutual

theorem length_render_le (depth : Nat) : ∀ t : JsonTree, (t.render false depth).length ≤ t.room
  | scalar _ v => v.length_render_le
  | array _ [] | object _ [] => Nat.le_refl _
  | array _ (t :: ts) => by
    have := length_renderItems_le (depth + 1) (t :: ts)
    have hopen : (Utf8.encode "[").length = 1 := by decide
    have hclose : (Utf8.encode "]").length = 1 := by decide
    rw [render, room, List.length_append, List.length_append, hopen, hclose]
    omega
  | object _ (t :: ts) => by
    have := length_renderMembers_le (depth + 1) (t :: ts)
    have hopen : (Layout.objectStart false).length = 1 := by decide
    have hclose : (Layout.objectEnd false depth).length = 1 := rfl
    rw [render, room, List.length_append, List.length_append, hopen, hclose]
    omega
  | reference _ target => length_render_le depth target

theorem length_renderItems_le (depth : Nat) :
    ∀ ts : List JsonTree, (renderItems false depth ts).length ≤ roomOfItems ts
  | [] => Nat.le_refl _
  | t :: ts => by
    have ht := length_render_le depth t
    have hts := length_renderItems_le depth ts
    have hcomma : (if ts.isEmpty then [] else Layout.itemSeparator false).length ≤ 1 := by
      split <;> decide
    rw [renderItems, roomOfItems, List.length_append, List.length_append]
    omega

theorem length_renderMembers_le (depth : Nat) :
    ∀ ts : List JsonTree, (renderMembers false depth ts).length ≤ roomOfMembers ts
  | [] => Nat.le_refl _
  | t :: ts => by
    have ht := length_render_le depth t
    have hts := length_renderMembers_le depth ts
    have hcomma := length_memberEnd_le ts.isEmpty
    have hindent : (Layout.memberIndent false depth).length = 0 := rfl
    have hcolon : (Layout.nameSeparator false).length = 1 := by decide
    simp only [renderMembers, roomOfMembers, List.length_append, hindent, hcolon]
    omega

end

end JsonTree

namespace Grammar

open Ascii

theorem length_literal_le (s : WideString) :
    (StringLiteral.literal s).length ≤ 6 * s.encode.length + 2 := by
  have hwidth : ∀ bytes : List UInt8, (StringLiteral.escape bytes).length ≤ 6 * bytes.length := by
    intro bytes
    induction bytes with
    | nil => exact Nat.le_refl _
    | cons b bytes ih =>
      have hb : (StringLiteral.escapeByte b).length ≤ 6 := by
        rw [StringLiteral.length_escapeByte, StringLiteral.escapedWidth]
        repeat' split
        all_goals decide
      rw [StringLiteral.escape_cons, List.length_append, List.length_cons]
      omega
  have := hwidth s.encode
  rw [StringLiteral.literal, List.length_append, List.length_cons, List.length_singleton]
  omega

theorem StringToken.length_literal_le (t : StringToken) :
    (StringLiteral.literal t.value).length ≤ 61 * t.literal.length := by
  have := (StringLiteral.read_bounds t.read_literal).1
  have hvalue := Grammar.length_literal_le t.value
  rw [WideString.encode_ofString] at hvalue
  omega

mutual

/-- The room of what a derivation denotes is bounded by its length. -/
theorem Value.room_tree_le : ∀ v : Value, v.tree.room ≤ 61 * v.bytes.length
  | .null | .bool true | .bool false => by decide
  | .string token => token.length_literal_le
  | .number token => by
    obtain ⟨b, hb, -⟩ := token.head
    have : 1 ≤ token.literal.length := List.length_pos_of_mem (List.mem_of_mem_head? hb)
    show 61 ≤ 61 * token.literal.length
    omega
  | .emptyArray inside | .emptyObject inside => by
    show 2 ≤ 61 * (_ :: (inside.bytes ++ [_])).length
    rw [List.length_cons, List.length_append, List.length_singleton]
    omega
  | .array items => by
    have := items.roomOfItems_trees_le
    rw [Value.tree, JsonTree.room, Value.bytes, List.length_cons, List.length_append,
      List.length_singleton]
    omega
  | .object members => by
    have := members.roomOfMembers_trees_le
    rw [Value.tree, JsonTree.room, Value.bytes, List.length_cons, List.length_append,
      List.length_singleton]
    omega

theorem Items.roomOfItems_trees_le : ∀ items : Items,
    JsonTree.roomOfItems items.trees ≤ 61 * items.bytes.length + 1
  | .last before value after => by
    have := value.room_tree_le
    simp only [Items.trees, JsonTree.roomOfItems, Items.bytes, List.length_append]
    omega
  | .more before value after rest => by
    have := value.room_tree_le
    have := rest.roomOfItems_trees_le
    simp only [Items.trees, JsonTree.roomOfItems, Items.bytes, List.length_append,
      List.length_cons]
    omega

theorem Members.roomOfMembers_trees_le : ∀ members : Members,
    JsonTree.roomOfMembers members.trees ≤ 61 * members.bytes.length + 1
  | .last before name beforeColon afterColon value after => by
    have := value.room_tree_le
    have := name.length_literal_le
    simp only [Members.trees, JsonTree.roomOfMembers, Members.bytes, List.length_append,
      List.length_cons, JsonTree.label_withLabel, JsonTree.room_withLabel, Label.owned,
      Option.getD_some]
    omega
  | .more before name beforeColon afterColon value after rest => by
    have := value.room_tree_le
    have := name.length_literal_le
    have := rest.roomOfMembers_trees_le
    simp only [Members.trees, JsonTree.roomOfMembers, Members.bytes, List.length_append,
      List.length_cons, JsonTree.label_withLabel, JsonTree.room_withLabel, Label.owned,
      Option.getD_some]
    omega

end

end Grammar

/-! ## The pretty layout -/

namespace JsonTree

theorem length_memberIndent_le (pretty : Bool) (depth : Nat) :
    (Layout.memberIndent pretty depth).length ≤ depth := by
  cases pretty with
  | false => exact Nat.zero_le depth
  | true => exact (List.length_replicate ..).le

mutual

/-- The text of a tree in either layout, where lines are indented at most `w` tabs deep. Around a
node stand at most `w + 2` bytes that the compact layout does not have; these are spared here, so
that the containers can account for them. -/
theorem length_render_le_indented (pretty : Bool) {w : Nat} (depth : Nat) :
    ∀ t : JsonTree, depth + t.nesting ≤ w →
      (t.render pretty depth).length + (w + 2) ≤ t.room + (2 * w + 2) * t.nodeCount
  | scalar _ v, _ => by
    have := v.length_render_le
    simp only [render, room, nodeCount]
    omega
  | array _ [], _ | object _ [], _ => by
    simp only [render, room, roomOfItems, roomOfMembers, nodeCount, nodeCounts]
    have : (Utf8.encode "[]").length = 2 ∧ (Utf8.encode "\x7b\x7d").length = 2 := by decide
    omega
  | array _ (t :: ts), h => by
    rw [nesting] at h
    have := length_renderItems_le_indented pretty (w := w) (depth + 1) (t :: ts) (by omega)
    have hopen : (Utf8.encode "[").length = 1 := by decide
    have hclose : (Utf8.encode "]").length = 1 := by decide
    rw [render, room, nodeCount, Nat.mul_add, List.length_append, List.length_append, hopen, hclose]
    omega
  | object _ (t :: ts), h => by
    rw [nesting] at h
    have := length_renderMembers_le_indented pretty (w := w) (depth + 1) (t :: ts) (by omega)
    have hopen : (Layout.objectStart pretty).length ≤ 2 := by cases pretty <;> decide
    have hclose : (Layout.objectEnd pretty depth).length ≤ depth + 1 := by
      rw [Layout.objectEnd, List.length_append]
      exact Nat.add_le_add (length_memberIndent_le pretty depth) (by decide)
    rw [render, room, nodeCount, Nat.mul_add, List.length_append, List.length_append]
    omega
  | reference _ target, h => by
    have := length_render_le_indented pretty depth target h
    rw [render, room, nodeCount, Nat.mul_add]
    omega

theorem length_renderItems_le_indented (pretty : Bool) {w : Nat} (depth : Nat) :
    ∀ ts : List JsonTree, depth + nestings ts ≤ w →
      (renderItems pretty depth ts).length ≤ roomOfItems ts + (2 * w + 2) * nodeCounts ts
  | [], _ => Nat.zero_le _
  | t :: ts, h => by
    rw [nestings] at h
    have ht := length_render_le_indented pretty (w := w) depth t (by omega)
    have hts := length_renderItems_le_indented pretty (w := w) depth ts (by omega)
    have hcomma : (if ts.isEmpty then [] else Layout.itemSeparator pretty).length ≤ 2 := by
      cases pretty <;> split <;> decide
    rw [renderItems, roomOfItems, nodeCounts, Nat.mul_add, List.length_append, List.length_append]
    omega

theorem length_renderMembers_le_indented (pretty : Bool) {w : Nat} (depth : Nat) :
    ∀ ts : List JsonTree, depth + nestings ts ≤ w →
      (renderMembers pretty depth ts).length ≤ roomOfMembers ts + (2 * w + 2) * nodeCounts ts
  | [], _ => Nat.zero_le _
  | t :: ts, h => by
    rw [nestings] at h
    have ht := length_render_le_indented pretty (w := w) depth t (by omega)
    have hts := length_renderMembers_le_indented pretty (w := w) depth ts (by omega)
    have hindent := length_memberIndent_le pretty depth
    have hcolon : (Layout.nameSeparator pretty).length ≤ 2 := by cases pretty <;> decide
    have hend : (Layout.memberEnd pretty ts.isEmpty).length ≤ 2 := by
      cases pretty <;> cases ts.isEmpty <;> decide
    simp only [renderMembers, roomOfMembers, nodeCounts, Nat.mul_add, List.length_append]
    omega

end

mutual

theorem nesting_le_nodeCount : ∀ t : JsonTree, t.nesting ≤ t.nodeCount
  | scalar _ _ => Nat.zero_le _
  | array _ ts => Nat.succ_le_succ (nestings_le_nodeCounts ts)
  | object _ ts => Nat.succ_le_succ (nestings_le_nodeCounts ts)
  | reference _ target => (nesting_le_nodeCount target).trans (Nat.le_succ _)

theorem nestings_le_nodeCounts : ∀ ts : List JsonTree, nestings ts ≤ nodeCounts ts
  | [] => Nat.le_refl _
  | t :: ts => by
    have ht := nesting_le_nodeCount t
    have hts := nestings_le_nodeCounts ts
    rw [nestings, nodeCounts]
    omega

end

end JsonTree

/-! ## Documents -/

namespace Grammar

mutual

/-- Each node takes a byte of the source at least. -/
theorem Value.nodeCount_tree_le : ∀ v : Value, v.tree.nodeCount ≤ v.bytes.length
  | .null | .bool true | .bool false => by decide
  | .string token => by
    have := (StringLiteral.read_bounds token.read_literal).1
    show 1 ≤ token.literal.length
    omega
  | .number token => by
    obtain ⟨b, hb, -⟩ := token.head
    exact List.length_pos_of_mem (List.mem_of_mem_head? hb)
  | .emptyArray _ | .emptyObject _ => Nat.le_add_left 1 _
  | .array items => by
    have := items.nodeCounts_trees_le
    rw [Value.tree, JsonTree.nodeCount, Value.bytes, List.length_cons, List.length_append]
    omega
  | .object members => by
    have := members.nodeCounts_trees_le
    rw [Value.tree, JsonTree.nodeCount, Value.bytes, List.length_cons, List.length_append]
    omega

theorem Items.nodeCounts_trees_le :
    ∀ items : Items, JsonTree.nodeCounts items.trees ≤ items.bytes.length
  | .last before value after => by
    have := value.nodeCount_tree_le
    simp only [Items.trees, JsonTree.nodeCounts, Items.bytes, List.length_append]
    omega
  | .more before value after rest => by
    have := value.nodeCount_tree_le
    have := rest.nodeCounts_trees_le
    simp only [Items.trees, JsonTree.nodeCounts, Items.bytes, List.length_append, List.length_cons]
    omega

theorem Members.nodeCounts_trees_le :
    ∀ members : Members, JsonTree.nodeCounts members.trees ≤ members.bytes.length
  | .last before name beforeColon afterColon value after => by
    have := value.nodeCount_tree_le
    simp only [Members.trees, JsonTree.nodeCounts, JsonTree.nodeCount_withLabel, Members.bytes,
      List.length_append, List.length_cons]
    omega
  | .more before name beforeColon afterColon value after rest => by
    have := value.nodeCount_tree_le
    have := rest.nodeCounts_trees_le
    simp only [Members.trees, JsonTree.nodeCounts, JsonTree.nodeCount_withLabel, Members.bytes,
      List.length_append, List.length_cons]
    omega

end

end Grammar

namespace Document

variable {options : ReadOptions} {bytes : List UInt8} {d : Document}

/-- How much there can be of what is read, by the limit on nesting and the length of the source. -/
theorem bounds_of_read (h : Document.read options none bytes = .ok d) :
    d.tree.nesting ≤ options.maxDepth.toNat ∧ d.tree.room ≤ 61 * bytes.length ∧
      d.tree.nodeCount ≤ bytes.length := by
  obtain ⟨before, v, after, hcontent, htree, hnesting⟩ := exists_value_of_read h
  have hlength : v.bytes.length ≤ bytes.length := by
    have hle : (content bytes).length ≤ bytes.length := (List.takeWhile_sublist _).length_le
    rw [hcontent, List.length_append, List.length_append] at hle
    omega
  have hroom := v.room_tree_le
  have hcount := v.nodeCount_tree_le
  rw [← htree, v.nesting_tree]
  exact ⟨hnesting, by omega, by omega⟩

/-- The text in either layout of what is read. Lines are indented no deeper than the limit, and no
deeper than the source is long. -/
theorem length_render_le_of_read (h : Document.read options none bytes = .ok d) (pretty : Bool) :
    (d.tree.render pretty 0).length ≤
      (2 * min options.maxDepth.toNat bytes.length + 63) * bytes.length := by
  obtain ⟨hnesting, hroom, hcount⟩ := bounds_of_read h
  have hnodes := d.tree.nesting_le_nodeCount
  generalize hw : min options.maxDepth.toNat bytes.length = w
  have hlength := d.tree.length_render_le_indented pretty (w := w) 0 (by omega)
  calc (d.tree.render pretty 0).length
    _ ≤ d.tree.room + (2 * w + 2) * d.tree.nodeCount := by omega
    _ ≤ 61 * bytes.length + (2 * w + 2) * bytes.length :=
      Nat.add_le_add hroom (Nat.mul_le_mul_left _ hcount)
    _ = (2 * w + 63) * bytes.length := by
      rw [← Nat.add_mul, Nat.add_comm 61, Nat.add_assoc]

end Document

end LinkedJson
