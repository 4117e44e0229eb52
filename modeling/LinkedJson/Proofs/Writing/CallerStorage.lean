import LinkedJson.Proofs.Writing.Places
import LinkedJson.Proofs.Writing.Printing

/-!
# Printing into the storage of a caller

Storage of a fixed size is `Overwritten` by a text when the text and a zero byte stand at its front
and everything behind them is as it was. A buffer over such storage passes from one text to the next
(`Writing.put_kept`), and refuses a text exactly when it does not fit with its zero byte; so a run
that stops leaves the texts that came before (`Writing.run_eq_error`). Printing into storage needs
one byte more than the text has and touches nothing else (`JsonTree.printInto_exact`).
-/

namespace LinkedJson

open Buffer

/-- The storage of a caller after a text and a zero byte were put in front of what was there. -/
structure Overwritten (target : Array UInt8) (out : List UInt8) (storage : Array UInt8) : Prop where
  fits : out.length < target.size
  toList_eq : storage.toList = out ++ 0 :: target.toList.drop (out.length + 1)

/-- A buffer over the storage of a caller that was overwritten by a text, or not written to at all.
-/
structure Kept (target : Array UInt8) (b : Buffer) (out : List UInt8) : Prop where
  growable : b.growable = false
  offset_eq : b.offset = out.length
  storage : out = [] ∧ b.storage = target ∨ Overwritten target out b.storage

namespace Kept

variable {target : Array UInt8} {b : Buffer} {out : List UInt8}

theorem fixed (target : Array UInt8) : Kept target (.fixed target) [] :=
  ⟨rfl, rfl, .inl ⟨rfl, rfl⟩⟩

theorem capacity_eq (h : Kept target b out) : b.capacity = target.size := by
  rcases h.storage with ⟨-, hsame⟩ | hover
  · rw [capacity, hsame]
  · have hfits := hover.fits
    have hlength := congrArg List.length hover.toList_eq
    rw [List.length_append, List.length_cons, List.length_drop, @Array.length_toList _ b.storage,
      @Array.length_toList _ target] at hlength
    rw [capacity]
    omega

theorem settled (h : Kept target b out) : Settled b out := by
  refine ⟨h.offset_eq, ?_⟩
  rcases h.storage with ⟨rfl, -⟩ | hover
  · exact List.nil_prefix
  · rw [hover.toList_eq]
    exact List.prefix_append ..

/-- Behind the text and its zero byte everything is as it was. -/
theorem drop_eq (h : Kept target b out) (n : Nat) :
    b.storage.toList.drop (out.length + (n + 1)) = target.toList.drop (out.length + (n + 1)) := by
  rcases h.storage with ⟨-, hsame⟩ | hover
  · rw [hsame]
  · rw [hover.toList_eq, List.drop_length_add_append, List.drop_succ_cons, List.drop_drop]
    congr 1
    omega

end Kept

namespace Writing

variable {target : Array UInt8} {b b' : Buffer} {out : List UInt8}

/-- What a text that is put at the offset leaves behind. -/
theorem put_kept {text : List UInt8} (h : Kept target b out) (hzero : 0 ∉ text)
    (hput : put text b = .ok b') :
    Kept target b'.settle (out ++ text) ∧ Overwritten target (out ++ text) b'.storage := by
  have hpending := put_ok h.settled hzero hput
  have hoffset : b'.settle.offset = (out ++ text).length := hpending.settle.offset_eq
  unfold put write? at hput
  split at hput
  · cases hput
  · rename_i b₂ hwrite
    cases hput
    obtain ⟨b₁, hreserve, rfl⟩ := Option.map_eq_some_iff.1 hwrite
    have hroom := (capacity_of_reserve? hreserve).2
    have hsame : b₁ = b := by
      unfold reserve? at hreserve
      simp only [h.growable, Bool.false_eq_true, not_false_eq_true, true_or, if_true] at hreserve
      split at hreserve
      · cases hreserve
      · split at hreserve
        · exact (Option.some.inj hreserve).symm
        · cases hreserve
    subst hsame
    rw [h.offset_eq, h.capacity_eq] at hroom
    have hfits : out.length + (text ++ [0]).length ≤ b₁.storage.size := by
      have hsize : b₁.storage.size = target.size := h.capacity_eq
      rw [List.length_append, List.length_singleton]
      omega
    have hover : Overwritten target (out ++ text) (b₁.putAll b₁.offset (text ++ [0])).storage := by
      refine ⟨by rw [List.length_append]; omega, ?_⟩
      rw [h.offset_eq, putAll_natCast]
      show (overwrite b₁.storage out.length (text ++ [0])).toList = _
      rw [toList_overwrite hfits, h.settled.eq_take, List.length_append, List.length_singleton,
        h.drop_eq, List.length_append]
      simp [Nat.add_assoc]
    exact ⟨⟨h.growable, hoffset, .inr hover⟩, hover⟩

/-- A text is put when it fits with its zero byte. -/
theorem exists_put_of_lt {text : List UInt8} (h : Kept target b out)
    (htext : text.length < greatestLength) (hfits : (out ++ text).length < target.size) :
    ∃ b', put text b = .ok b' := by
  rw [List.length_append] at hfits
  have hreserve : b.reserve? ((text.length + 1 : Nat) : Int) = some b := by
    unfold reserve?
    dsimp only
    rw [h.offset_eq, h.capacity_eq, if_neg (by omega), if_pos (by omega)]
  rw [put, write?, hreserve]
  exact ⟨_, rfl⟩

/-! ## Runs of pieces -/

theorem run_kept {ps : List Piece} (h : Kept target b out) (hzero : ∀ p ∈ ps, p.ZeroFree)
    (hrun : run ps b = .ok b') :
    Kept target b' (out ++ Piece.written ps) ∧
      (ps ≠ [] → Overwritten target (out ++ Piece.written ps) b'.storage) := by
  induction ps generalizing b out with
  | nil =>
    cases hrun
    rw [Piece.written, List.append_nil]
    exact ⟨h, fun hne => absurd rfl hne⟩
  | cons p ps ih =>
    cases p with
    | fault f => cases hrun
    | text bytes =>
      obtain ⟨hbytes, hps⟩ := List.forall_mem_cons.1 hzero
      obtain ⟨b₁, hput, hrest⟩ := bind_eq_ok_iff.1 hrun
      obtain ⟨hkept, hover⟩ := put_kept h hbytes hput
      obtain ⟨hkept', hover'⟩ := ih hkept hps hrest
      rw [Piece.written, ← List.append_assoc]
      refine ⟨hkept', fun _ => ?_⟩
      cases ps with
      | nil =>
        cases hrest
        rw [Piece.written, List.append_nil]
        exact hover
      | cons p ps => exact hover' (List.cons_ne_nil p ps)

/-- Texts that all fit are all put. -/
theorem exists_run_of_lt {ps : List Piece} (h : Kept target b out) (hzero : ∀ p ∈ ps, p.ZeroFree)
    (hfault : Piece.fault? ps = none)
    (htexts : ∀ bytes, .text bytes ∈ ps → bytes.length < greatestLength)
    (hfits : (out ++ Piece.written ps).length < target.size) : ∃ b', run ps b = .ok b' := by
  induction ps generalizing b out with
  | nil => exact ⟨b, rfl⟩
  | cons p ps ih =>
    cases p with
    | fault f => cases hfault
    | text bytes =>
      obtain ⟨hbytes, hps⟩ := List.forall_mem_cons.1 hzero
      rw [Piece.written, ← List.append_assoc] at hfits
      obtain ⟨b₁, hput⟩ := exists_put_of_lt h (htexts bytes List.mem_cons_self) (by
        rw [List.length_append] at hfits
        omega)
      rw [run, hput]
      exact ih (put_kept h hbytes hput).1 hps hfault
        (fun text htext => htexts text (List.mem_cons_of_mem _ htext)) hfits

/-- A run that stops has put the texts before the piece that it stops at. -/
theorem run_eq_error {ps : List Piece} {e : WriteFault × Buffer} (h : Kept target b out)
    (hzero : ∀ p ∈ ps, p.ZeroFree) (hrun : run ps b = .error e) :
    ∃ front p rest, ps = front ++ p :: rest ∧ Piece.fault? front = none ∧
      run front b = .ok e.2 := by
  induction ps generalizing b out with
  | nil => cases hrun
  | cons p ps ih =>
    cases p with
    | fault f =>
      cases hrun
      exact ⟨[], .fault f, ps, rfl, rfl, rfl⟩
    | text bytes =>
      obtain ⟨hbytes, hps⟩ := List.forall_mem_cons.1 hzero
      rw [run] at hrun
      cases hput : put bytes b with
      | ok b₁ =>
        rw [hput] at hrun
        obtain ⟨front, p, rest, rfl, hfault, hfront⟩ := ih (put_kept h hbytes hput).1 hps hrun
        refine ⟨.text bytes :: front, p, rest, rfl, hfault, ?_⟩
        rw [run, hput]
        exact hfront
      | error e₁ =>
        rw [hput] at hrun
        cases hrun
        refine ⟨[], .text bytes, ps, rfl, rfl, ?_⟩
        unfold put at hput
        split at hput
        · cases hput
          rfl
        · cases hput

/-- Whoever puts all texts has room for each of them. -/
theorem length_lt_of_run {ps : List Piece} (hrun : run ps b = .ok b') {bytes : List UInt8}
    (hmem : .text bytes ∈ ps) : bytes.length < greatestLength := by
  induction ps generalizing b with
  | nil => cases hmem
  | cons p ps ih =>
    cases p with
    | fault f => cases hrun
    | text text =>
      obtain ⟨b₁, hput, hrest⟩ := bind_eq_ok_iff.1 hrun
      rcases List.mem_cons.1 hmem with heq | hmem
      · cases heq
        unfold put write? reserve? at hput
        dsimp only at hput
        split at hput
        · cases hput
        · rename_i hwrite
          split at hwrite
          · cases hwrite
          · omega
      · exact ih hrest hmem

end Writing

namespace JsonTree

/-! ## Trees -/

/-- A tree is a single piece, or begins with a text. -/
theorem pieces_eq_singleton_or (options : WriteOptions) (depth : Nat) (t : JsonTree) :
    (∃ p, t.pieces options depth = [p]) ∨
      ∃ bytes ps, bytes ≠ [] ∧ t.pieces options depth = .text bytes :: ps := by
  induction t using JsonTree.resolve.induct with
  | case1 _ target ih => exact ih
  | case2 t hreference =>
    cases t with
    | scalar _ v => exact .inl ⟨v.piece, rfl⟩
    | array _ ts =>
      rw [pieces]
      split
      · exact .inl ⟨_, rfl⟩
      · split
        · exact .inl ⟨_, rfl⟩
        · exact .inr ⟨Utf8.encode "[", _, List.cons_ne_nil _ _, rfl⟩
    | object _ ts =>
      rw [pieces]
      split
      · exact .inl ⟨_, rfl⟩
      · split
        · exact .inl ⟨_, rfl⟩
        · refine .inr ⟨Layout.objectStart options.pretty, _, ?_, rfl⟩
          cases options.pretty <;> exact List.cons_ne_nil _ _
    | reference l target => exact absurd rfl (hreference l target)

/-- The texts before a fault are the beginning of the text of the tree. -/
theorem written_pieces_isPrefix (options : WriteOptions) (t : JsonTree) :
    Piece.written (t.pieces options 0) <+: t.render options.pretty 0 := by
  cases hfault : Piece.fault? (t.pieces options 0) with
  | none => exact ⟨[], by rw [List.append_nil, written_pieces options 0 t hfault]⟩
  | some f =>
    have hreport := findSome?_places options 0 [] t
    rw [Piece.report, hfault, Option.map_some, List.nil_append] at hreport
    obtain ⟨front, p, rest, hplaces, hp, -⟩ := List.findSome?_eq_some_iff.1 hreport
    obtain ⟨_, -, heq⟩ := Option.map_eq_some_iff.1 hp
    have hmem : p ∈ t.places options.pretty 0 [] := by
      rw [hplaces]
      exact List.mem_append_right front List.mem_cons_self
    obtain ⟨after, hafter⟩ := render_eq_of_mem_places t hmem
    rw [List.nil_append] at hafter
    rw [hafter, ← (Prod.mk.inj heq).2]
    exact List.prefix_append ..

theorem written_front_isPrefix {options : WriteOptions} {t : JsonTree} {front rest : List Piece}
    (h : t.pieces options 0 = front ++ rest) (hfault : Piece.fault? front = none) :
    Piece.written front <+: t.render options.pretty 0 := by
  refine List.IsPrefix.trans ?_ (written_pieces_isPrefix options t)
  rw [h, Piece.written_append_of_none hfault]
  exact List.prefix_append ..

/-- What a tree begins with is no empty text if there is more to come. -/
theorem written_front_ne_nil {options : WriteOptions} {t : JsonTree} {p : Piece}
    {front rest : List Piece} (h : t.pieces options 0 = front ++ p :: rest) (hne : front ≠ []) :
    Piece.written front ≠ [] := by
  obtain ⟨q, front, rfl⟩ := List.exists_cons_of_ne_nil hne
  rcases pieces_eq_singleton_or options 0 t with ⟨p', hsingle⟩ | ⟨bytes, ps, hbytes, htext⟩
  · rw [hsingle, List.cons_append] at h
    exact absurd (List.cons.inj h).2.symm (List.append_ne_nil_of_right_ne_nil _ (List.cons_ne_nil _ _))
  · rw [htext, List.cons_append] at h
    rw [← (List.cons.inj h).1, Piece.written]
    exact List.append_ne_nil_of_left_ne_nil hbytes _

mutual

/-- Only the layout and the limit of nesting have a bearing on the pieces of a tree. -/
theorem pieces_congr {options options' : WriteOptions} (hpretty : options.pretty = options'.pretty)
    (hlimit : options.maxDepth = options'.maxDepth) (depth : Nat) :
    ∀ t : JsonTree, t.pieces options depth = t.pieces options' depth
  | scalar _ _ => rfl
  | array _ ts => by
    rw [pieces, pieces, hlimit, itemPieces_congr hpretty hlimit (depth + 1) ts]
  | object _ ts => by
    rw [pieces, pieces, hlimit, hpretty, memberPieces_congr hpretty hlimit (depth + 1) ts]
  | reference _ target => pieces_congr hpretty hlimit depth target

theorem itemPieces_congr {options options' : WriteOptions}
    (hpretty : options.pretty = options'.pretty) (hlimit : options.maxDepth = options'.maxDepth)
    (depth : Nat) : ∀ ts : List JsonTree, itemPieces options depth ts = itemPieces options' depth ts
  | [] => rfl
  | t :: ts => by
    rw [itemPieces, itemPieces, hpretty, pieces_congr hpretty hlimit depth t,
      itemPieces_congr hpretty hlimit depth ts]

theorem memberPieces_congr {options options' : WriteOptions}
    (hpretty : options.pretty = options'.pretty) (hlimit : options.maxDepth = options'.maxDepth)
    (depth : Nat) :
    ∀ ts : List JsonTree, memberPieces options depth ts = memberPieces options' depth ts
  | [] => rfl
  | t :: ts => by
    rw [memberPieces, memberPieces, hpretty, pieces_congr hpretty hlimit depth t,
      memberPieces_congr hpretty hlimit depth ts]

end

variable {options : WriteOptions} {target : Array UInt8} {t : JsonTree}

theorem of_printInto {n : Nat} (h : (t.printInto options target).1 = .ok n) :
    n = (t.render options.pretty 0).length ∧
      Overwritten target (t.render options.pretty 0) (t.printInto options target).2 := by
  have hne : t.pieces options 0 ≠ [] := by
    rcases pieces_eq_singleton_or options 0 t with ⟨p, hp⟩ | ⟨bytes, ps, -, hp⟩
    · exact hp ▸ List.cons_ne_nil p []
    · exact hp ▸ List.cons_ne_nil _ ps
  rw [printInto, document_eq options t (Kept.fixed target).settled] at h ⊢
  cases hrun : Writing.run (t.pieces options 0) (.fixed target) with
  | error e =>
    rw [hrun] at h
    cases h
  | ok b =>
    rw [hrun] at h
    have hzero := zeroFree_pieces options 0 t
    have hfault := (Writing.run_ok (Kept.fixed target).settled hzero hrun).1
    obtain ⟨hkept, hover⟩ := Writing.run_kept (Kept.fixed target) hzero hrun
    rw [written_pieces options 0 t hfault, List.nil_append] at hkept hover
    refine ⟨?_, hover hne⟩
    rw [← Except.ok.inj h, hkept.offset_eq, Int.toNat_natCast]

theorem exists_printInto {b b' : Buffer} (hrun : Writing.run (t.pieces options 0) b = .ok b')
    (hfault : Piece.fault? (t.pieces options 0) = none)
    (hfits : (t.render options.pretty 0).length < target.size) :
    ∃ n, (t.printInto options target).1 = .ok n := by
  obtain ⟨b₁, hrun₁⟩ := Writing.exists_run_of_lt (Kept.fixed target) (zeroFree_pieces options 0 t)
    hfault (fun _ => Writing.length_lt_of_run hrun) (by
      rwa [written_pieces options 0 t hfault, List.nil_append])
  rw [printInto, document_eq options t (Kept.fixed target).settled, hrun₁]
  exact ⟨_, rfl⟩

/-- Where printing stops, the text of the tree stands in the storage up to there. -/
theorem of_printInto_error {e : WriteFailure} (h : (t.printInto options target).1 = .error e) :
    (e.byteOffset = 0 → (t.printInto options target).2 = target) ∧
      (e.byteOffset ≠ 0 → e.byteOffset ≤ (t.render options.pretty 0).length ∧
        Overwritten target ((t.render options.pretty 0).take e.byteOffset)
          (t.printInto options target).2) := by
  rw [printInto, document_eq options t (Kept.fixed target).settled] at h ⊢
  cases hrun : Writing.run (t.pieces options 0) (.fixed target) with
  | ok b =>
    rw [hrun] at h
    cases h
  | error e =>
    rw [hrun] at h
    cases h
    have hzero := zeroFree_pieces options 0 t
    obtain ⟨front, p, rest, hpieces, hfault, hfront⟩ :=
      Writing.run_eq_error (Kept.fixed target) hzero hrun
    rw [hpieces] at hzero
    obtain ⟨hkept, hover⟩ := Writing.run_kept (Kept.fixed target)
      (fun p hp => hzero p (List.mem_append_left _ hp)) hfront
    rw [List.nil_append] at hkept hover
    have hoffset : (writeFailure e).byteOffset = (Piece.written front).length := by
      rw [writeFailure, hkept.offset_eq, Int.toNat_natCast]
    have hfront_le := written_front_isPrefix hpieces hfault
    rw [hoffset]
    refine ⟨fun hnil => ?_, fun hne => ⟨hfront_le.length_le, ?_⟩⟩
    · -- nothing was written, so no piece was put
      cases front with
      | nil =>
        have hsame := Except.ok.inj hfront
        show e.2.storage = target
        rw [← hsame]
        rfl
      | cons q front =>
        have hne := written_front_ne_nil hpieces (List.cons_ne_nil q front)
        exact absurd (List.length_eq_zero_iff.1 hnil) hne
    · rw [← List.prefix_iff_eq_take.1 hfront_le]
      refine hover fun hnil => hne ?_
      rw [hnil]
      rfl

/-- **Printing into storage is exact about room and touches nothing else.** If a tree is printed at
all, from any first size and budget, then it is printed into storage that has one byte more than the
text, and into no other; the text and a zero byte then stand in front of what was there. Where
printing into storage stops, for whatever reason, the text of the tree stands there up to the byte
that is reported, with a zero byte behind it; if that is the first byte, nothing was touched. -/
theorem printInto_exact (options : WriteOptions) (target : Array UInt8) (t : JsonTree) :
    (∀ hint budget s, (t.print { options with sizeHint := hint } budget).1 = .ok s →
      ((∃ n, (t.printInto options target).1 = .ok n) ↔
        (Utf8.encode s).length + 1 ≤ target.size) ∧
      ∀ n, (t.printInto options target).1 = .ok n → n = (Utf8.encode s).length ∧
        (t.printInto options target).2.toList =
          Utf8.encode s ++ 0 :: target.toList.drop (n + 1)) ∧
    ∀ e, (t.printInto options target).1 = .error e →
      (e.byteOffset = 0 → (t.printInto options target).2 = target) ∧
      (e.byteOffset ≠ 0 → e.byteOffset < target.size ∧
        e.byteOffset ≤ (t.render options.pretty 0).length ∧
        (t.printInto options target).2.toList =
          (t.render options.pretty 0).take e.byteOffset ++
            0 :: target.toList.drop (e.byteOffset + 1)) := by
  refine ⟨fun hint budget s hs => ?_, fun e he => ?_⟩
  · have htext : Utf8.encode s = t.render options.pretty 0 := (of_print hs).1
    obtain ⟨b, b', hrun, -, hfault, -⟩ := exists_settled_of_print hs
    have hpieces : t.pieces { options with sizeHint := hint } 0 = t.pieces options 0 :=
      @pieces_congr { options with sizeHint := hint } options rfl rfl 0 t
    rw [hpieces] at hrun hfault
    rw [htext]
    refine ⟨⟨?_, exists_printInto hrun hfault⟩, fun n hn => ?_⟩
    · rintro ⟨n, hn⟩
      exact (of_printInto hn).2.fits
    · obtain ⟨rfl, hover⟩ := of_printInto hn
      exact ⟨rfl, hover.toList_eq⟩
  · obtain ⟨hzero, hpositive⟩ := of_printInto_error he
    refine ⟨hzero, fun hne => ?_⟩
    obtain ⟨hle, hover⟩ := hpositive hne
    have hlength : ((t.render options.pretty 0).take e.byteOffset).length = e.byteOffset := by
      rw [List.length_take, Nat.min_eq_left hle]
    have hfits := hover.fits
    have hstorage := hover.toList_eq
    rw [hlength] at hfits hstorage
    exact ⟨hfits, hle, hstorage⟩

/-- Eight bytes hold `[null]`, a zero byte and what was there; in six bytes there is no room for the
bracket at the end. -/
theorem printInto_exact_null_item :
    (printInto ⟨false, 0, 1⟩ #[7, 7, 7, 7, 7, 7, 7, 7] (.array .none [.scalar .none .null])).2.toList =
        Utf8.encode "[null]" ++ [0, 7] ∧
      (printInto ⟨false, 0, 1⟩ #[7, 7, 7, 7, 7, 7] (.array .none [.scalar .none .null])).2.toList =
        Utf8.encode "[null" ++ [0] := by
  have hprint : (print ⟨false, 64, 1⟩ .unlimited (.array .none [.scalar .none .null])).1 =
      .ok "[null]" := eq_ok_of_toOption (by decide +kernel)
  have hstop : (printInto ⟨false, 0, 1⟩ #[7, 7, 7, 7, 7, 7]
      (.array .none [.scalar .none .null])).1 = .error ⟨.bufferFull, 5⟩ := by
    decide +kernel
  obtain ⟨hok, -⟩ := printInto_exact ⟨false, 0, 1⟩ #[7, 7, 7, 7, 7, 7, 7, 7]
    (.array .none [.scalar .none .null])
  obtain ⟨-, herror⟩ := printInto_exact ⟨false, 0, 1⟩ #[7, 7, 7, 7, 7, 7]
    (.array .none [.scalar .none .null])
  obtain ⟨hroom, hstorage⟩ := hok 64 .unlimited "[null]" hprint
  obtain ⟨n, hn⟩ := hroom.2 (by decide)
  obtain ⟨rfl, hfull⟩ := hstorage n hn
  exact ⟨hfull, ((herror _ hstop).2 (by decide)).2.2⟩

end JsonTree

end LinkedJson
