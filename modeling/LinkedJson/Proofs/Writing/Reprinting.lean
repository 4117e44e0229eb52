import LinkedJson.Proofs.Writing.Growing
import LinkedJson.Proofs.Writing.TextRoom

/-!
# Reading and printing settles after one round

`reprint` reads a text and prints in the compact layout what was read. What it gives for its own
output it gives from then on (`reprint_settles`): numbers settle after one reading, and all else is
printed as it is read. The first output is final already if every number is whole or not finite.

What is read is printed in either layout, unless its text is too long for storage
(`Document.exists_print_of_read`). In the compact layout that takes at most 61 bytes for each byte of
the source, so every source that is not too long by that measure is printed each time.
-/

namespace LinkedJson

/-! ## Normal forms of normal forms -/

namespace JsonTree

theorem label_normal (l : Label) (t : JsonTree) : (t.normal l).label = l := by
  rw [← withLabel_normal l .none, label_withLabel]

/-- The literal of a member's name stays the same. -/
theorem literal_normal (t : JsonTree) :
    StringLiteral.literal
        ((t.normal (.owned (t.label.key.getD "").wellFormed)).label.key.getD "") =
      StringLiteral.literal (t.label.key.getD "") := by
  rw [label_normal]
  exact StringLiteral.literal_wellFormed _

mutual

/-- A tree is printed as its normal form, if each of its scalars is. -/
theorem render_normal (pretty : Bool) (depth : Nat) (l : Label) :
    ∀ t : JsonTree, (∀ v ∈ t.scalars, v.normal.render = v.render) →
      (t.normal l).render pretty depth = t.render pretty depth
  | scalar _ v, h => h v (List.mem_singleton_self v)
  | array _ [], _ | object _ [], _ => rfl
  | array _ (t :: ts), h => by
    have hitems := renderItems_normal pretty (depth + 1) (t :: ts) h
    rw [normalItems] at hitems
    rw [normal, normalItems, render, hitems, render]
  | object _ (t :: ts), h => by
    have hmembers := renderMembers_normal pretty (depth + 1) (t :: ts) h
    rw [normalMembers] at hmembers
    rw [normal, normalMembers, render, hmembers, render]
  | reference _ target, h => render_normal pretty depth l target h

theorem renderItems_normal (pretty : Bool) (depth : Nat) :
    ∀ ts : List JsonTree, (∀ v ∈ scalarsOf ts, v.normal.render = v.render) →
      renderItems pretty depth (normalItems ts) = renderItems pretty depth ts
  | [], _ => rfl
  | t :: ts, h => by
    obtain ⟨ht, hts⟩ := List.forall_mem_append.1 h
    have hempty : (normalItems ts).isEmpty = ts.isEmpty := by cases ts <;> rfl
    rw [normalItems, renderItems, render_normal pretty depth .none t ht,
      renderItems_normal pretty depth ts hts, hempty, renderItems]

theorem renderMembers_normal (pretty : Bool) (depth : Nat) :
    ∀ ts : List JsonTree, (∀ v ∈ scalarsOf ts, v.normal.render = v.render) →
      renderMembers pretty depth (normalMembers ts) = renderMembers pretty depth ts
  | [], _ => rfl
  | t :: ts, h => by
    obtain ⟨ht, hts⟩ := List.forall_mem_append.1 h
    have hempty : (normalMembers ts).isEmpty = ts.isEmpty := by cases ts <;> rfl
    rw [normalMembers, renderMembers, render_normal pretty depth _ t ht,
      renderMembers_normal pretty depth ts hts, hempty, literal_normal, renderMembers]

end

mutual

theorem scalars_normal (l : Label) :
    ∀ t : JsonTree, (t.normal l).scalars = t.scalars.map Scalar.normal
  | scalar _ _ => rfl
  | array _ ts => scalarsOf_normalItems ts
  | object _ ts => scalarsOf_normalMembers ts
  | reference _ target => scalars_normal l target

theorem scalarsOf_normalItems :
    ∀ ts : List JsonTree, scalarsOf (normalItems ts) = (scalarsOf ts).map Scalar.normal
  | [] => rfl
  | t :: ts => by
    rw [normalItems, scalarsOf, scalarsOf, scalars_normal .none t, scalarsOf_normalItems ts,
      List.map_append]

theorem scalarsOf_normalMembers :
    ∀ ts : List JsonTree, scalarsOf (normalMembers ts) = (scalarsOf ts).map Scalar.normal
  | [] => rfl
  | t :: ts => by
    rw [normalMembers, scalarsOf, scalarsOf, scalars_normal _ t, scalarsOf_normalMembers ts,
      List.map_append]

end

end JsonTree

namespace Scalar

theorem render_finite (x : FiniteDouble) :
    (Scalar.number (.ofDouble (.finite x))).render = Utf8.encode (.ofList x.written) := by
  rw [render, Number.text_finite (x := x) rfl]
  rfl

theorem normal_finite (x : FiniteDouble) :
    (Scalar.number (.ofDouble (.finite x))).normal = .number (.ofDouble x.reread) := by
  rw [normal, (Number.reread_finite (x := x) rfl).2]
  rfl

/-- A settled number is printed as its normal form. -/
theorem render_normal_of_settled {x : FiniteDouble} (h : x.Settled) :
    (Scalar.number (.ofDouble (.finite x))).normal.render =
      (Scalar.number (.ofDouble (.finite x))).render := by
  obtain ⟨y, hread, hwritten⟩ := h
  rw [normal_finite, hread, render_finite, render_finite, hwritten]

theorem normal_not_finite {d : Double} (h : ∀ x, d ≠ .finite x) :
    (Scalar.number (.ofDouble d)).normal = .null ∧
      (Scalar.number (.ofDouble d)).render = Scalar.null.render := by
  refine ⟨Number.reread_not_finite h, ?_⟩
  show Utf8.encode (Number.ofDouble d).text = _
  rw [Number.text_not_finite h]
  rfl

/-- What is read is printed as its normal form, if it is whole in case of a finite number. -/
theorem Read.render_normal_of_whole {v : Scalar} (h : v.Read)
    (hwhole : ∀ n, v = .number n → ∀ x : FiniteDouble, n.value = .finite x →
      ∃ k : Int, x.toRat = k) : v.normal.render = v.render := by
  cases v with
  | number n =>
    obtain ⟨d, rfl⟩ := h
    by_cases hd : ∃ x, d = .finite x
    · obtain ⟨x, rfl⟩ := hd
      obtain ⟨k, hk⟩ := hwhole _ rfl x rfl
      exact render_normal_of_settled (FiniteDouble.settled_of_whole hk)
    · obtain ⟨hnull, hrender⟩ := normal_not_finite (not_exists.1 hd)
      rw [hnull, hrender]
  | string s => exact StringLiteral.literal_wellFormed s
  | _ => rfl

/-- The normal form of what is read is printed as its own normal form. -/
theorem Read.render_normal_normal {v : Scalar} (h : v.Read) :
    v.normal.normal.render = v.normal.render := by
  cases v with
  | number n =>
    obtain ⟨d, rfl⟩ := h
    by_cases hd : ∃ x, d = .finite x
    · obtain ⟨x, rfl⟩ := hd
      obtain ⟨y, hread, hsettled⟩ := x.settles
      rw [normal_finite, hread]
      exact render_normal_of_settled hsettled
    · rw [(normal_not_finite (not_exists.1 hd)).1]
      rfl
  | string s => exact StringLiteral.literal_wellFormed s.wellFormed
  | _ => rfl

end Scalar

/-! ## Room for normal forms -/

theorem Scalar.room_normal_le (v : Scalar) : v.normal.room ≤ v.room := by
  cases v with
  | number n =>
    have hnull : Scalar.null.room ≤ (Scalar.number n).room := by
      show Scalar.null.room ≤ 61
      decide
    rw [normal, Number.reread]
    split
    · split
      · exact Nat.le_refl 61
      · exact hnull
    · exact hnull
  | string s => exact Nat.le_of_eq (congrArg List.length (StringLiteral.literal_wellFormed s))
  | _ => exact Nat.le_refl _

namespace JsonTree

mutual

theorem room_normal_le (l : Label) : ∀ t : JsonTree, (t.normal l).room ≤ t.room
  | scalar _ v => v.room_normal_le
  | array _ ts => Nat.add_le_add_right (roomOfItems_normal_le ts) 2
  | object _ ts => Nat.add_le_add_right (roomOfMembers_normal_le ts) 2
  | reference _ target => room_normal_le l target

theorem roomOfItems_normal_le :
    ∀ ts : List JsonTree, roomOfItems (normalItems ts) ≤ roomOfItems ts
  | [] => Nat.le_refl _
  | t :: ts => by
    have ht := room_normal_le .none t
    have hts := roomOfItems_normal_le ts
    rw [normalItems, roomOfItems, roomOfItems]
    omega

theorem roomOfMembers_normal_le :
    ∀ ts : List JsonTree, roomOfMembers (normalMembers ts) ≤ roomOfMembers ts
  | [] => Nat.le_refl _
  | t :: ts => by
    have ht := room_normal_le (.owned (t.label.key.getD "").wellFormed) t
    have hts := roomOfMembers_normal_le ts
    rw [normalMembers, roomOfMembers, roomOfMembers, literal_normal]
    omega

end

end JsonTree

/-! ## Reading and printing -/

namespace JsonTree

mutual

/-- A tree within the nesting limit that holds nothing raw has no fault. -/
theorem fault?_pieces_of_nesting (options : WriteOptions) (depth : Nat) :
    ∀ t : JsonTree, (∀ v ∈ t.scalars, v.Readable) →
      t.nesting ≤ (options.maxDepth - depth).toNat → Piece.fault? (t.pieces options depth) = none
  | scalar _ v, hscalars, _ => by
    have hv := hscalars v (List.mem_singleton_self v)
    cases v with
    | raw text => exact hv.elim
    | _ => rfl
  | array _ ts, hscalars, hnesting => by
    rw [nesting] at hnesting
    have hitems := fault?_itemPieces_of_nesting options (depth + 1) ts hscalars (by omega)
    rw [pieces, if_neg (by omega)]
    split
    · rfl
    · rw [Piece.fault?, Piece.fault?_append, hitems]
      rfl
  | object _ ts, hscalars, hnesting => by
    rw [nesting] at hnesting
    have hmembers := fault?_memberPieces_of_nesting options (depth + 1) ts hscalars (by omega)
    rw [pieces, if_neg (by omega)]
    split
    · rfl
    · rw [Piece.fault?, Piece.fault?_append, hmembers]
      rfl
  | reference _ target, hscalars, hnesting =>
    fault?_pieces_of_nesting options depth target hscalars hnesting

theorem fault?_itemPieces_of_nesting (options : WriteOptions) (depth : Nat) :
    ∀ ts : List JsonTree, (∀ v ∈ scalarsOf ts, v.Readable) →
      nestings ts ≤ (options.maxDepth - depth).toNat →
      Piece.fault? (itemPieces options depth ts) = none
  | [], _, _ => rfl
  | t :: ts, hscalars, hnesting => by
    obtain ⟨ht, hts⟩ := List.forall_mem_append.1 hscalars
    obtain ⟨hnesting, hnestings⟩ := Nat.max_le.1 hnesting
    rw [itemPieces, Piece.fault?_append, Piece.fault?_append, Piece.fault?_ofSome,
      fault?_pieces_of_nesting options depth t ht hnesting,
      fault?_itemPieces_of_nesting options depth ts hts hnestings]
    rfl

theorem fault?_memberPieces_of_nesting (options : WriteOptions) (depth : Nat) :
    ∀ ts : List JsonTree, (∀ v ∈ scalarsOf ts, v.Readable) →
      nestings ts ≤ (options.maxDepth - depth).toNat →
      Piece.fault? (memberPieces options depth ts) = none
  | [], _, _ => rfl
  | t :: ts, hscalars, hnesting => by
    obtain ⟨ht, hts⟩ := List.forall_mem_append.1 hscalars
    obtain ⟨hnesting, hnestings⟩ := Nat.max_le.1 hnesting
    rw [memberPieces, Piece.fault?_append, Piece.fault?_ofSome, Piece.fault?, Piece.fault?,
      Piece.fault?_append, Piece.fault?_append, Piece.fault?_ofSome,
      fault?_pieces_of_nesting options depth t ht hnesting,
      fault?_memberPieces_of_nesting options depth ts hts hnestings]
    rfl

end

end JsonTree

namespace Document

variable {options : ReadOptions} {bytes : List UInt8} {d : Document}

/-- Without a budget and within the limit it was read under, what is read is printed in either
layout, if its text fits into storage. -/
theorem exists_print_of_read (h : Document.read options none bytes = .ok d) (pretty : Bool)
    {hint : Int} (budget : ByteBudget) (hhint : 0 ≤ hint ∧ hint ≤ greatestLength)
    (hbudget : budget.limit = none) (hroom : (d.tree.render pretty 0).length < greatestLength) :
    ∃ s, (d.tree.print ⟨pretty, hint, options.maxDepth⟩ budget).1 = .ok s := by
  have hfault := d.tree.fault?_pieces_of_nesting ⟨pretty, hint, options.maxDepth⟩ 0
    (asRead_of_read h).readable.scalars (by simpa using (bounds_of_read h).1)
  exact JsonTree.exists_print_of_fault?_eq_none hhint hbudget hfault hroom

end Document

/-- The text in the compact layout of what is read from a text. -/
def reprint (bytes : List UInt8) : Option (List UInt8) :=
  (Document.read {} none bytes).toOption.bind fun d =>
    (d.tree.print { pretty := false } .unlimited).1.toOption.map Utf8.encode

namespace Document

variable {bytes : List UInt8} {d : Document}

theorem compact_hint : (0 : Int) ≤ 256 ∧ (256 : Int) ≤ greatestLength := by
  rw [greatestLength]
  decide

/-- What is read is printed, if its text fits into storage. -/
theorem reprint_of_read (h : Document.read {} none bytes = .ok d)
    (hroom : (d.tree.render false 0).length < greatestLength) :
    reprint bytes = some (d.tree.render false 0) := by
  obtain ⟨s, hs⟩ := exists_print_of_read h false .unlimited compact_hint rfl hroom
  rw [reprint, h]
  show (d.tree.print { pretty := false } .unlimited).1.toOption.map Utf8.encode = _
  rw [hs, ← (JsonTree.of_print hs).1]
  rfl

/-- What is printed is the text of what was read, and it is read as the normal form of that. -/
theorem read_of_reprint {text : List UInt8} (h : Document.read {} none bytes = .ok d)
    (htext : reprint bytes = some text) : text = d.tree.render false 0 ∧
      text.length < greatestLength ∧
      ∃ stop, Document.read {} none text = .ok ⟨d.tree.normal .none, stop⟩ := by
  rw [reprint, h] at htext
  replace htext : (d.tree.print { pretty := false } .unlimited).1.toOption.map Utf8.encode =
    some text := htext
  obtain ⟨s, hs, rfl⟩ := Option.map_eq_some_iff.1 htext
  have hprint : (d.tree.print { pretty := false } .unlimited).1 = .ok s := by
    cases hprint : (d.tree.print { pretty := false } .unlimited).1 with
    | error e =>
      rw [hprint] at hs
      cases hs
    | ok s' =>
      rw [hprint] at hs
      cases hs
      rfl
  have hrender := (JsonTree.of_print hprint).1
  refine ⟨hrender, hrender ▸ JsonTree.length_render_lt_of_print hprint, ?_⟩
  rw [hrender]
  exact read_of_read_whole
    ((asRead_of_read h).readable.read_render (bounds_of_read h).1 false)

/-- The normal form of what is read is printed as its own normal form. -/
theorem render_normal_normal (h : Document.read {} none bytes = .ok d) :
    ((d.tree.normal .none).normal .none).render false 0 = (d.tree.normal .none).render false 0 := by
  refine JsonTree.render_normal false 0 .none _ fun v hv => ?_
  rw [JsonTree.scalars_normal] at hv
  obtain ⟨w, hw, rfl⟩ := List.mem_map.1 hv
  exact ((asRead_of_read h).ofToken_scalars w hw).read.render_normal_normal

/-- **Reading and printing settles after one round.** What is printed of a source that is read is
read and printed again as a text that stays the same from then on, and such texts are there unless
they are too long for storage, which takes a source of more than `2 ^ 47` bytes. If all numbers are
whole or not finite, then the first text stays already; otherwise it need not. -/
theorem reprint_settles (bytes : List UInt8) (d : Document)
    (h : Document.read {} none bytes = .ok d) :
    (61 * bytes.length < greatestLength → ∃ y z,
      reprint bytes = some y ∧ reprint y = some z ∧ reprint z = some z) ∧
    (∀ y z, reprint bytes = some y → reprint y = some z → reprint z = some z) ∧
    ((∀ n, .number n ∈ d.tree.scalars → ∀ x : FiniteDouble, n.value = .finite x →
        ∃ k : Int, x.toRat = k) →
      ∀ y, reprint bytes = some y → reprint y = some y) ∧
    (∃ source y z, reprint source = some y ∧ reprint y = some z ∧ y ≠ z) := by
  have hroom := (bounds_of_read h).2.1
  have hnormal := render_normal_normal h
  refine ⟨fun hlength => ?_, fun y z hy hz => ?_, fun hwhole y hy => ?_, ?_⟩
  · have hfirst := d.tree.length_render_le 0
    have hsecond := (d.tree.normal .none).length_render_le 0
    have hle := d.tree.room_normal_le .none
    have hy := reprint_of_read h (by omega)
    obtain ⟨-, -, stop, hread⟩ := read_of_reprint h hy
    have hroom' : ((d.tree.normal .none).render false 0).length < greatestLength := by omega
    have hz := reprint_of_read hread hroom'
    obtain ⟨-, -, stop', hread'⟩ := read_of_reprint hread hz
    refine ⟨_, _, hy, hz, ?_⟩
    rw [reprint_of_read hread' (hnormal ▸ hroom'), hnormal]
  · obtain ⟨-, -, stop, hread⟩ := read_of_reprint h hy
    obtain ⟨rfl, hlength, stop', hread'⟩ := read_of_reprint hread hz
    rw [reprint_of_read hread' (hnormal ▸ hlength), hnormal]
  · obtain ⟨rfl, hy_length, stop, hread⟩ := read_of_reprint h hy
    have hsame : (d.tree.normal .none).render false 0 = d.tree.render false 0 :=
      JsonTree.render_normal false 0 .none _ fun v hv =>
        ((asRead_of_read h).ofToken_scalars v hv).read.render_normal_of_whole fun n hn =>
          hwhole n (hn ▸ hv)
    rw [reprint_of_read hread (hsame ▸ hy_length), hsame]
  · exact ⟨Utf8.encode "1.0000000001", Utf8.encode "1.000000", Utf8.encode "1", by decide +kernel⟩

/-- A number that is written with an exponent at first, and then with all its digits. -/
theorem reprint_settles_large_fraction :
    (∃ y z, reprint (Utf8.encode "[1234567890.5]") = some y ∧ reprint y = some z ∧
      reprint z = some z) ∧
    reprint (Utf8.encode "[1234567890.5]") = some (Utf8.encode "[1.234568e+09]") ∧
    reprint (Utf8.encode "[1.234568e+09]") = some (Utf8.encode "[1234568000]") ∧
    reprint (Utf8.encode "[1234568000]") = some (Utf8.encode "[1234568000]") := by
  have hread : (Document.read {} none (Utf8.encode "[1234567890.5]")).toOption.isSome = true := by
    decide +kernel
  obtain ⟨d, hd⟩ := Option.isSome_iff_exists.1 hread
  have hlength : 61 * (Utf8.encode "[1234567890.5]").length < greatestLength := by
    rw [greatestLength]
    decide
  obtain ⟨hsettles, hstays, -, -⟩ := reprint_settles _ d (eq_ok_of_toOption hd)
  have hy : reprint (Utf8.encode "[1234567890.5]") = some (Utf8.encode "[1.234568e+09]") := by
    decide +kernel
  have hz : reprint (Utf8.encode "[1.234568e+09]") = some (Utf8.encode "[1234568000]") := by
    decide +kernel
  exact ⟨hsettles hlength, hy, hz, hstays _ _ hy hz⟩

end Document

end LinkedJson
