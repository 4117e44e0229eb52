import LinkedJson.Document.Writing
import LinkedJson.Proofs.Writing.Storage
import LinkedJson.Proofs.Writing.TreeText

/-!
# A document is written piece by piece

`JsonTree.pieces` lists what a writer comes to on its way through a tree: texts to be written, and
faults. Writing a tree is running through its pieces up to the first fault, each of them put at the
offset and settled before the next one (`Writing.tree_eq`). So what becomes of a document is a
question about a list: whatever a buffer is like, it holds the texts of the pieces so far
(`Writing.run_ok`).
-/

namespace LinkedJson

open Buffer

/-- What a writer comes to: a text that it writes, or a fault. -/
inductive Piece where
  | text (bytes : List UInt8)
  | fault (fault : WriteFault)

namespace Piece

/-- The piece of a text, if there is any. -/
def ofSome (text : List UInt8) : List Piece :=
  if text.isEmpty then [] else [.text text]

/-- The first fault. -/
def fault? : List Piece → Option WriteFault
  | [] => none
  | .fault f :: _ => some f
  | .text _ :: ps => fault? ps

/-- The texts up to the first fault. -/
def written : List Piece → List UInt8
  | [] | .fault _ :: _ => []
  | .text bytes :: ps => bytes ++ written ps

/-- A text without a zero byte, or a fault. -/
def ZeroFree : Piece → Prop
  | text bytes => 0 ∉ bytes
  | fault _ => True

theorem fault?_append (ps qs : List Piece) : fault? (ps ++ qs) = (fault? ps).or (fault? qs) := by
  induction ps with
  | nil => simp [fault?]
  | cons p ps ih =>
    cases p with
    | text bytes => exact ih
    | fault f => rfl

theorem written_append_of_none {ps : List Piece} (h : fault? ps = none) (qs : List Piece) :
    written (ps ++ qs) = written ps ++ written qs := by
  induction ps with
  | nil => rfl
  | cons p ps ih =>
    cases p with
    | text bytes => rw [List.cons_append, written, ih h, written, List.append_assoc]
    | fault f => cases h

theorem written_append_of_some {ps : List Piece} {f : WriteFault} (h : fault? ps = some f)
    (qs : List Piece) : written (ps ++ qs) = written ps := by
  induction ps with
  | nil => cases h
  | cons p ps ih =>
    cases p with
    | text bytes => rw [List.cons_append, written, ih h, written]
    | fault f => rfl

@[simp] theorem fault?_ofSome (text : List UInt8) : fault? (ofSome text) = none := by
  unfold ofSome
  split <;> rfl

@[simp] theorem written_ofSome (text : List UInt8) : written (ofSome text) = text := by
  unfold ofSome
  split
  · rename_i h
    exact (List.isEmpty_iff.1 h).symm
  · simp [written]

theorem zeroFree_ofSome {text : List UInt8} (h : 0 ∉ text) : ∀ p ∈ ofSome text, p.ZeroFree := by
  unfold ofSome
  split
  · exact fun _ hp => nomatch hp
  · exact List.forall_mem_singleton.2 h

end Piece

/-- The piece that a value without parts is. -/
def Scalar.piece : Scalar → Piece
  | .raw text =>
    if text.encode.contains 0 then .fault .rawHoldsNul else .text text.encode
  | v => .text v.render

namespace JsonTree

mutual

/-- The pieces of a tree that stands inside `depth` containers. -/
def pieces (options : WriteOptions) (depth : Nat) : JsonTree → List Piece
  | scalar _ v => [v.piece]
  | array _ ts =>
    if options.maxDepth ≤ depth then [.fault (.nestingTooDeep options.maxDepth)]
    else if ts.isEmpty then [.text (Utf8.encode "[]")]
    else .text (Utf8.encode "[") :: (itemPieces options (depth + 1) ts ++ [.text (Utf8.encode "]")])
  | object _ ts =>
    if options.maxDepth ≤ depth then [.fault (.nestingTooDeep options.maxDepth)]
    else if ts.isEmpty then [.text (Utf8.encode "\x7b\x7d")]
    else .text (Layout.objectStart options.pretty) ::
      (memberPieces options (depth + 1) ts ++ [.text (Layout.objectEnd options.pretty depth)])
  | reference _ target => target.pieces options depth

def itemPieces (options : WriteOptions) (depth : Nat) : List JsonTree → List Piece
  | [] => []
  | t :: ts =>
    t.pieces options depth ++
      (Piece.ofSome (if ts.isEmpty then [] else Layout.itemSeparator options.pretty) ++
        itemPieces options depth ts)

def memberPieces (options : WriteOptions) (depth : Nat) : List JsonTree → List Piece
  | [] => []
  | t :: ts =>
    Piece.ofSome (Layout.memberIndent options.pretty depth) ++
      .text (StringLiteral.literal (t.label.key.getD "")) ::
      .text (Layout.nameSeparator options.pretty) ::
      (t.pieces options depth ++
        (Piece.ofSome (Layout.memberEnd options.pretty ts.isEmpty) ++
          memberPieces options depth ts))

end

theorem zeroFree_piece (v : Scalar) : v.piece.ZeroFree := by
  cases v with
  | null => exact (by decide : 0 ∉ Utf8.encode "null")
  | bool value =>
    cases value with
    | true => exact (by decide : 0 ∉ Utf8.encode "true")
    | false => exact (by decide : 0 ∉ Utf8.encode "false")
  | number n => exact n.zero_not_mem_text
  | string s => exact StringLiteral.zero_not_mem_quoted s.encode
  | raw text =>
    rw [Scalar.piece]
    split
    · trivial
    · rename_i hzero
      simpa [Piece.ZeroFree] using hzero

mutual

theorem zeroFree_pieces (options : WriteOptions) (depth : Nat) :
    ∀ t : JsonTree, ∀ p ∈ t.pieces options depth, p.ZeroFree
  | scalar _ v => by
    rw [pieces]
    exact List.forall_mem_singleton.2 (zeroFree_piece v)
  | array _ ts => by
    have hitems := zeroFree_itemPieces options (depth + 1) ts
    rw [pieces]
    split
    · exact List.forall_mem_singleton.2 trivial
    · split
      · exact List.forall_mem_singleton.2 (by decide : 0 ∉ Utf8.encode "[]")
      · refine List.forall_mem_cons.2 ⟨(by decide : 0 ∉ Utf8.encode "["), ?_⟩
        refine List.forall_mem_append.2 ⟨hitems, ?_⟩
        exact List.forall_mem_singleton.2 (by decide : 0 ∉ Utf8.encode "]")
  | object _ ts => by
    have hmembers := zeroFree_memberPieces options (depth + 1) ts
    rw [pieces]
    split
    · exact List.forall_mem_singleton.2 trivial
    · split
      · exact List.forall_mem_singleton.2 (by decide : 0 ∉ Utf8.encode "\x7b\x7d")
      · refine List.forall_mem_cons.2 ⟨(Layout.plain_objectStart options.pretty).zero_not_mem, ?_⟩
        refine List.forall_mem_append.2 ⟨hmembers, ?_⟩
        exact List.forall_mem_singleton.2 (Layout.plain_objectEnd options.pretty depth).zero_not_mem
  | reference _ target => zeroFree_pieces options depth target

theorem zeroFree_itemPieces (options : WriteOptions) (depth : Nat) :
    ∀ ts : List JsonTree, ∀ p ∈ itemPieces options depth ts, p.ZeroFree
  | [] => fun _ hp => nomatch hp
  | t :: ts => by
    rw [itemPieces]
    refine List.forall_mem_append.2 ⟨zeroFree_pieces options depth t, ?_⟩
    refine List.forall_mem_append.2 ⟨Piece.zeroFree_ofSome ?_, zeroFree_itemPieces options depth ts⟩
    exact (Layout.plain_itemEnd options.pretty ts.isEmpty).zero_not_mem

theorem zeroFree_memberPieces (options : WriteOptions) (depth : Nat) :
    ∀ ts : List JsonTree, ∀ p ∈ memberPieces options depth ts, p.ZeroFree
  | [] => fun _ hp => nomatch hp
  | t :: ts => by
    rw [memberPieces]
    refine List.forall_mem_append.2 ⟨Piece.zeroFree_ofSome ?_, List.forall_mem_cons.2 ⟨?_,
      List.forall_mem_cons.2 ⟨?_, List.forall_mem_append.2 ⟨zeroFree_pieces options depth t,
      List.forall_mem_append.2 ⟨Piece.zeroFree_ofSome ?_, zeroFree_memberPieces options depth ts⟩⟩⟩⟩⟩
    · exact (Layout.plain_memberIndent options.pretty depth).zero_not_mem
    · exact StringLiteral.zero_not_mem_quoted _
    · exact (Layout.plain_nameSeparator options.pretty).zero_not_mem
    · exact (Layout.plain_memberEnd options.pretty ts.isEmpty).zero_not_mem

end

/-! ## The texts of the pieces -/

theorem written_piece {v : Scalar} (h : Piece.fault? [v.piece] = none) :
    Piece.written [v.piece] = v.render := by
  cases v with
  | raw text =>
    rw [Scalar.piece] at h ⊢
    split at h
    · cases h
    · rename_i hzero
      rw [if_neg hzero, Piece.written, Piece.written, List.append_nil, Scalar.render]
  | _ => exact List.append_nil _

mutual

/-- The pieces of a tree without a fault make up the text of the tree. -/
theorem written_pieces (options : WriteOptions) (depth : Nat) :
    ∀ t : JsonTree, Piece.fault? (t.pieces options depth) = none →
      Piece.written (t.pieces options depth) = t.render options.pretty depth
  | scalar _ v, h => written_piece h
  | array _ ts, h => by
    rw [pieces] at h ⊢
    split at h
    · cases h
    · rename_i hdepth
      rw [if_neg hdepth]
      cases ts with
      | nil => exact List.append_nil _
      | cons t ts =>
        rw [List.isEmpty_cons, if_neg Bool.false_ne_true] at h ⊢
        rw [Piece.fault?, Piece.fault?_append, Option.or_eq_none_iff] at h
        rw [Piece.written, Piece.written_append_of_none h.1, written_itemPieces options _ _ h.1,
          render, List.append_assoc]
        rfl
  | object _ ts, h => by
    rw [pieces] at h ⊢
    split at h
    · cases h
    · rename_i hdepth
      rw [if_neg hdepth]
      cases ts with
      | nil => exact List.append_nil _
      | cons t ts =>
        rw [List.isEmpty_cons, if_neg Bool.false_ne_true] at h ⊢
        rw [Piece.fault?, Piece.fault?_append, Option.or_eq_none_iff] at h
        rw [Piece.written, Piece.written_append_of_none h.1, written_memberPieces options _ _ h.1,
          render, List.append_assoc, Piece.written, Piece.written, List.append_nil]
  | reference _ target, h => written_pieces options depth target h

theorem written_itemPieces (options : WriteOptions) (depth : Nat) :
    ∀ ts : List JsonTree, Piece.fault? (itemPieces options depth ts) = none →
      Piece.written (itemPieces options depth ts) = renderItems options.pretty depth ts
  | [], _ => rfl
  | t :: ts, h => by
    rw [itemPieces] at h ⊢
    rw [Piece.fault?_append, Option.or_eq_none_iff, Piece.fault?_append, Piece.fault?_ofSome,
      Option.none_or] at h
    rw [Piece.written_append_of_none h.1, Piece.written_append_of_none (Piece.fault?_ofSome _),
      Piece.written_ofSome, written_pieces options depth t h.1,
      written_itemPieces options depth ts h.2, renderItems, List.append_assoc]

theorem written_memberPieces (options : WriteOptions) (depth : Nat) :
    ∀ ts : List JsonTree, Piece.fault? (memberPieces options depth ts) = none →
      Piece.written (memberPieces options depth ts) = renderMembers options.pretty depth ts
  | [], _ => rfl
  | t :: ts, h => by
    rw [memberPieces] at h ⊢
    rw [Piece.fault?_append, Piece.fault?_ofSome, Option.none_or, Piece.fault?, Piece.fault?,
      Piece.fault?_append, Option.or_eq_none_iff, Piece.fault?_append, Piece.fault?_ofSome,
      Option.none_or] at h
    rw [Piece.written_append_of_none (Piece.fault?_ofSome _), Piece.written_ofSome, Piece.written,
      Piece.written, Piece.written_append_of_none h.1,
      Piece.written_append_of_none (Piece.fault?_ofSome _), Piece.written_ofSome,
      written_pieces options depth t h.1, written_memberPieces options depth ts h.2, renderMembers]
    simp only [List.append_assoc]

end

end JsonTree

namespace Writing

/-- Writes pieces one after another, up to the first fault. -/
def run : List Piece → Buffer → Writing Buffer
  | [], b => .ok b
  | .fault f :: _, b => .error (f, b)
  | .text bytes :: ps, b => do
    let b ← put bytes b
    run ps b.settle

theorem run_append (ps qs : List Piece) (b : Buffer) :
    run (ps ++ qs) b = run ps b >>= run qs := by
  induction ps generalizing b with
  | nil => rfl
  | cons p ps ih =>
    cases p with
    | fault f => rfl
    | text bytes =>
      rw [List.cons_append, run, run]
      cases put bytes b with
      | error e => rfl
      | ok b' => exact ih b'.settle

theorem run_cons (p : Piece) (ps : List Piece) (b : Buffer) :
    run (p :: ps) b = run [p] b >>= run ps :=
  run_append [p] ps b

/-! ## Tokens -/

variable {b b' : Buffer} {out : List UInt8}

theorem put_ok {text : List UInt8} (h : Settled b out) (hzero : 0 ∉ text)
    (hput : put text b = .ok b') : Pending b' out text := by
  unfold put at hput
  split at hput
  · cases hput
  · rename_i hwrite
    cases hput
    exact h.write? hzero (Nat.le_refl _) hwrite

/-- Moving the offset by the length of a text settles it. -/
theorem append_eq {text : List UInt8} (h : Settled b out) (hzero : 0 ∉ text) :
    append text b = run [.text text] b := by
  unfold append
  rw [run]
  cases hput : put text b with
  | error e => rfl
  | ok b' =>
    show Except.ok (b'.advance text.length) = Except.ok b'.settle
    rw [(put_ok h hzero hput).settle_eq_advance]

theorem appendSome_eq {text : List UInt8} (h : Settled b out) (hzero : 0 ∉ text) :
    appendSome text b = run (Piece.ofSome text) b := by
  unfold appendSome Piece.ofSome
  split
  · rfl
  · exact append_eq h hzero

theorem literal_eq (h : Settled b out) (s : WideString) :
    literal s b = put (StringLiteral.literal s) b := by
  unfold literal put StringLiteral.literal
  rw [writeLiteral_eq h.offset_nonneg]
  cases b.write? ((Ascii.quote :: StringLiteral.escape s.encode ++ [Ascii.quote]).length + 1)
    (Ascii.quote :: StringLiteral.escape s.encode ++ [Ascii.quote]) <;> rfl

theorem run_text (text : List UInt8) (b : Buffer) : run [.text text] b = (put text b).map settle := by
  rw [run]
  cases put text b <;> rfl

/-- Pieces without a fault are settled when they are written. -/
theorem run_ok {ps : List Piece} (h : Settled b out) (hzero : ∀ p ∈ ps, p.ZeroFree)
    (hrun : run ps b = .ok b') : Piece.fault? ps = none ∧ Settled b' (out ++ Piece.written ps) := by
  induction ps generalizing b out with
  | nil =>
    cases hrun
    rw [Piece.written, List.append_nil]
    exact ⟨rfl, h⟩
  | cons p ps ih =>
    cases p with
    | fault f => cases hrun
    | text bytes =>
      obtain ⟨hbytes, hps⟩ := List.forall_mem_cons.1 hzero
      obtain ⟨b₁, hput, hrest⟩ := bind_eq_ok_iff.1 hrun
      rw [Piece.written, ← List.append_assoc]
      exact ih (put_ok h hbytes hput).settle hps hrest

theorem settled_of_run_text {text : List UInt8} (h : Settled b out) (hzero : 0 ∉ text)
    (hrun : run [.text text] b = .ok b') : Settled b' (out ++ text) := by
  have hpiece : (Piece.text text).ZeroFree := hzero
  have hsettled := (run_ok h (List.forall_mem_singleton.2 hpiece) hrun).2
  rwa [Piece.written, Piece.written, List.append_nil] at hsettled

theorem settled_of_run_ofSome {text : List UInt8} (h : Settled b out) (hzero : 0 ∉ text)
    (hrun : run (Piece.ofSome text) b = .ok b') : Settled b' (out ++ text) := by
  have hsettled := (run_ok h (Piece.zeroFree_ofSome hzero) hrun).2
  rwa [Piece.written_ofSome] at hsettled

/-! ## Trees -/

theorem scalar_eq (h : Settled b out) (v : Scalar) :
    (scalar v b).map settle = run [v.piece] b := by
  cases v with
  | null => exact (run_text _ b).symm
  | bool value => cases value <;> exact (run_text _ b).symm
  | number n => exact (run_text _ b).symm
  | string s =>
    rw [scalar, literal_eq h]
    exact (run_text _ b).symm
  | raw text =>
    rw [scalar, raw, Scalar.piece]
    split
    · rfl
    · exact (run_text _ b).symm

/-- Two runs one after the other agree if the second ones agree where the first one ends. -/
theorem bind_congr_of_ok {x : Writing Buffer} {f g : Buffer → Writing Buffer}
    (h : ∀ b, x = .ok b → f b = g b) : x >>= f = x >>= g := by
  cases x with
  | error e => rfl
  | ok b => exact h b rfl

theorem map_bind_eq {x : Writing Buffer} {f : Buffer → Buffer} {g : Buffer → Writing Buffer} :
    x.map f >>= g = x >>= fun b => g (f b) := by
  cases x <;> rfl

theorem map_bind_settle {x : Writing Buffer} {f : Buffer → Writing Buffer} :
    (x >>= f).map settle = x >>= fun b => (f b).map settle := by
  cases x <;> rfl

theorem settled_of_tree (options : WriteOptions) {depth : Nat} (t : JsonTree) (h : Settled b out)
    (htree : tree options depth t b = .ok b')
    (heq : (tree options depth t b).map settle = run (t.pieces options depth) b) :
    Settled b'.settle (out ++ Piece.written (t.pieces options depth)) := by
  rw [htree] at heq
  exact (run_ok h (JsonTree.zeroFree_pieces options depth t) heq.symm).2

mutual

/-- **A tree is written as its pieces are**, one after another. -/
theorem tree_eq (options : WriteOptions) {depth : Nat} {b : Buffer} {out : List UInt8} :
    ∀ t : JsonTree, Settled b out →
      (tree options depth t b).map settle = run (t.pieces options depth) b
  | .scalar _ v, h => by
    rw [tree, JsonTree.pieces]
    exact scalar_eq h v
  | .array _ ts, h => by
    rw [tree, JsonTree.pieces]
    split
    · rfl
    · split
      · exact (run_text _ b).symm
      · rw [append_eq h (by decide), map_bind_settle, run_cons _ (_ ++ _)]
        refine bind_congr_of_ok fun b₁ hopen => ?_
        rw [items_eq options ts (settled_of_run_text h (by decide) hopen), map_bind_settle, run_append]
        exact bind_congr_of_ok fun b₂ _ => (run_text _ b₂).symm
  | .object _ ts, h => by
    rw [tree, JsonTree.pieces]
    split
    · rfl
    · split
      · exact (run_text _ b).symm
      · have hstart := (Layout.plain_objectStart options.pretty).zero_not_mem
        rw [append_eq h hstart, map_bind_settle, run_cons _ (_ ++ _)]
        refine bind_congr_of_ok fun b₁ hopen => ?_
        rw [members_eq options ts (settled_of_run_text h hstart hopen), map_bind_settle, run_append]
        exact bind_congr_of_ok fun b₂ _ => (run_text _ b₂).symm
  | .reference _ target, h => by
    rw [tree, JsonTree.pieces]
    exact tree_eq options target h

theorem items_eq (options : WriteOptions) {depth : Nat} {b : Buffer} {out : List UInt8} :
    ∀ ts : List JsonTree, Settled b out →
      items options depth ts b = run (JsonTree.itemPieces options depth ts) b
  | [], _ => rfl
  | t :: ts, h => by
    rw [items, JsonTree.itemPieces, run_append, ← tree_eq options t h, map_bind_eq]
    refine bind_congr_of_ok fun b₁ htree => ?_
    have h₁ := settled_of_tree options t h htree (tree_eq options t h)
    have hend := (Layout.plain_itemEnd options.pretty ts.isEmpty).zero_not_mem
    rw [appendSome_eq h₁ hend, run_append]
    refine bind_congr_of_ok fun b₂ hseparator => ?_
    exact items_eq options ts (settled_of_run_ofSome h₁ hend hseparator)

theorem members_eq (options : WriteOptions) {depth : Nat} {b : Buffer} {out : List UInt8} :
    ∀ ts : List JsonTree, Settled b out →
      members options depth ts b = run (JsonTree.memberPieces options depth ts) b
  | [], _ => rfl
  | t :: ts, h => by
    have hindent := (Layout.plain_memberIndent options.pretty depth).zero_not_mem
    have hname := StringLiteral.zero_not_mem_quoted (t.label.key.getD "").encode
    have hcolon := (Layout.plain_nameSeparator options.pretty).zero_not_mem
    have hend := (Layout.plain_memberEnd options.pretty ts.isEmpty).zero_not_mem
    rw [members, JsonTree.memberPieces, appendSome_eq h hindent, run_append]
    refine bind_congr_of_ok fun b₁ h₁ => ?_
    replace h₁ := settled_of_run_ofSome h hindent h₁
    rw [literal_eq h₁, run]
    refine bind_congr_of_ok fun b₂ h₂ => ?_
    replace h₂ := (put_ok h₁ hname h₂).settle
    rw [append_eq h₂ hcolon, run_cons _ (_ ++ _)]
    refine bind_congr_of_ok fun b₃ h₃ => ?_
    replace h₃ := settled_of_run_text h₂ hcolon h₃
    rw [run_append, ← tree_eq options t h₃, map_bind_eq]
    refine bind_congr_of_ok fun b₄ h₄ => ?_
    replace h₄ := settled_of_tree options t h₃ h₄ (tree_eq options t h₃)
    rw [appendSome_eq h₄ hend, run_append]
    refine bind_congr_of_ok fun b₅ h₅ => ?_
    exact members_eq options ts (settled_of_run_ofSome h₄ hend h₅)

end

end Writing

end LinkedJson
