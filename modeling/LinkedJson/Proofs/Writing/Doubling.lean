import LinkedJson.Proofs.Store.ReadNodes
import LinkedJson.Proofs.Writing.Growing

/-!
# What growing costs

A buffer that has too little room takes twice the room that it needs, and it never needs more than
the text will have with its zero byte. So each capacity is more than twice the one before it, and
all that is taken out of a byte budget on the way is less than twice the last capacity. `Doubling`
is this account of one buffer, and every piece that is put keeps it.

A budget has a say only in whether there is room. Printing under a budget gives the text that is
printed without one, or is refused room before the text is complete (`Session.print_budgeted`).
-/

namespace LinkedJson

namespace ByteBudget

variable {budget : ByteBudget} {size : Nat}

/-- A budget grants a size, or the size is beyond its limit. -/
theorem grant?_cases (budget : ByteBudget) (size : Nat) :
    budget.grant? size = some { budget with granted := budget.granted + size } ∨
      budget.grant? size = none ∧ ∃ limit ∈ budget.limit, limit < size := by
  unfold grant? allows
  cases budget.limit with
  | none => exact .inl rfl
  | some limit =>
    by_cases hle : (size : Int) ≤ limit
    · exact .inl (by simp [hle])
    · exact .inr ⟨by simp [hle], limit, rfl, Int.not_le.1 hle⟩

end ByteBudget

namespace Buffer

/-- The account of a growable buffer that began with `first` bytes out of the budget `start`, and
has grown since only for texts of at most `n` bytes. -/
structure Doubling (start : ByteBudget) (first n : Nat) (b : Buffer) : Prop where
  growable : b.growable = true
  limit : b.budget.limit = start.limit
  spent :
    (b.capacity = first ∧ b.budget.granted = start.granted + first) ∨
      (first ≤ n ∧ b.capacity ≤ 2 * (n + 1) ∧
        b.budget.granted + 2 ≤ start.granted + 2 * b.capacity)

namespace Doubling

variable {start : ByteBudget} {first n : Nat} {b : Buffer} {out : List UInt8}

/-- What is written does not matter to the account. -/
theorem putAll (h : Doubling start first n b) (place : Int) (bytes : List UInt8) :
    Doubling start first n (b.putAll place bytes) := by
  have hcapacity : (b.putAll place bytes).capacity = b.capacity := size_overwrite ..
  refine ⟨h.growable, h.limit, ?_⟩
  rw [hcapacity]
  exact h.spent

/-- The new capacity is more than twice the old one, so it pays for all that was taken before. -/
theorem grow (h : Doubling start first n b) {required : Nat} (hfull : b.capacity < required)
    (hrequired : required ≤ n + 1) :
    Doubling start first n
      { b with
        storage := b.grow (2 * required)
        budget := { b.budget with granted := b.budget.granted + 2 * required } } := by
  have hcapacity : (b.grow (2 * required)).size = 2 * required := by
    rw [Buffer.grow, size_overwrite, Array.size_replicate]
  refine ⟨h.growable, h.limit, .inr ?_⟩
  show first ≤ n ∧ (b.grow (2 * required)).size ≤ 2 * (n + 1) ∧
    b.budget.granted + 2 * required + 2 ≤ start.granted + 2 * (b.grow (2 * required)).size
  rw [hcapacity]
  rcases h.spent with ⟨hsize, hgranted⟩ | ⟨hfirst, -, hgranted⟩
  · omega
  · omega

/-- Room for what the text has at most is granted, or is beyond the limit. -/
theorem reserve?_cases (h : Doubling start first n b) (hsettled : Settled b out) (needed : Nat)
    (hneeded : out.length + needed ≤ n + 1) (hn : 2 * (n + 1) ≤ greatestLength) :
    (∃ b', b.reserve? needed = some b' ∧ Doubling start first n b') ∨
      b.reserve? needed = none ∧ ∃ limit ∈ start.limit, limit < 2 * (n + 1) := by
  have hrequired : b.offset + (needed : Int) = (out.length + needed : Nat) := by
    rw [hsettled.offset_eq, Int.natCast_add]
  have hsize : grownSize (out.length + needed) = 2 * (out.length + needed) := by
    rw [grownSize]
    omega
  unfold reserve?
  simp only [hrequired, Int.toNat_natCast, hsize]
  rw [if_neg (by omega)]
  by_cases hfits : ((out.length + needed : Nat) : Int) ≤ b.capacity
  · rw [if_pos hfits]
    exact .inl ⟨b, rfl, h⟩
  · have hgrows : ¬ (¬ b.growable = true ∨
        (greatestLength : Int) < (out.length + needed : Nat)) := by
      rintro (hfixed | hbeyond)
      · exact hfixed h.growable
      · omega
    rw [if_neg hfits, if_neg hgrows]
    rcases ByteBudget.grant?_cases b.budget (2 * (out.length + needed)) with
      hgrant | ⟨hrefused, limit, hlimit, hlt⟩
    · rw [hgrant]
      exact .inl ⟨_, rfl, h.grow (by omega) hneeded⟩
    · rw [hrefused]
      rw [h.limit] at hlimit
      exact .inr ⟨rfl, limit, hlimit, by omega⟩

end Doubling

end Buffer

open Buffer

namespace Writing

variable {start : ByteBudget} {first n : Nat} {b : Buffer} {out : List UInt8}

/-- A text that fits into what is counted on is put, or is refused room. -/
theorem put_doubling (h : Doubling start first n b) (hsettled : Settled b out) (text : List UInt8)
    (htext : out.length + text.length ≤ n) (hn : 2 * (n + 1) ≤ greatestLength) :
    (∃ b', put text b = .ok b' ∧ Doubling start first n b'.settle) ∨
      put text b = .error (.growthRefused, b) ∧ ∃ limit ∈ start.limit, limit < 2 * (n + 1) := by
  unfold put write?
  rcases h.reserve?_cases hsettled (text.length + 1) (by omega) hn with
    ⟨b₁, hreserve, h₁⟩ | ⟨hrefused, hlimit⟩
  · rw [hreserve]
    have hput := h₁.putAll b₁.offset (text ++ [0])
    exact .inl ⟨_, rfl, hput.growable, hput.limit, hput.spent⟩
  · rw [hrefused]
    refine .inr ⟨?_, hlimit⟩
    show noRoom b = _
    rw [noRoom, h.growable, if_pos rfl]

/-- Pieces without a fault are written with the account kept, or room is refused before the text is
complete. -/
theorem run_doubling {ps : List Piece} (h : Doubling start first n b) (hsettled : Settled b out)
    (hzero : ∀ p ∈ ps, p.ZeroFree) (hfault : Piece.fault? ps = none)
    (hlength : out.length + (Piece.written ps).length ≤ n) (hn : 2 * (n + 1) ≤ greatestLength) :
    (∃ b', run ps b = .ok b' ∧ Doubling start first n b') ∨
      (∃ b', run ps b = .error (.growthRefused, b') ∧ Doubling start first n b' ∧ b'.offset ≤ n) ∧
        ∃ limit ∈ start.limit, limit < 2 * (n + 1) := by
  induction ps generalizing b out with
  | nil => exact .inl ⟨b, rfl, h⟩
  | cons p ps ih =>
    cases p with
    | fault f => cases hfault
    | text bytes =>
      obtain ⟨hbytes, hps⟩ := List.forall_mem_cons.1 hzero
      rw [Piece.written, List.length_append] at hlength
      rw [run]
      rcases put_doubling h hsettled bytes (by omega) hn with
        ⟨b₁, hput, h₁⟩ | ⟨hrefused, hlimit⟩
      · rw [hput]
        exact ih h₁ (put_ok hsettled hbytes hput).settle hps hfault (by
          rw [List.length_append]
          omega)
      · rw [hrefused]
        refine .inr ⟨⟨b, rfl, h, ?_⟩, hlimit⟩
        rw [hsettled.offset_eq]
        omega

end Writing

namespace JsonTree

variable {options : WriteOptions} {t : JsonTree} {text : String}

/-- The first storage is granted, or is beyond the limit. -/
theorem create?_cases {size n : Nat} (hsize : size ≤ greatestLength) (budget : ByteBudget) :
    (∃ b, Buffer.create? size budget = some b ∧ Doubling budget size n b) ∨
      Buffer.create? size budget = none ∧ ∃ limit ∈ budget.limit, limit < size := by
  unfold Buffer.create?
  rw [if_neg (by omega), Int.toNat_natCast]
  rcases budget.grant?_cases size with hgrant | ⟨hrefused, hlimit⟩
  · rw [hgrant]
    refine .inl ⟨_, rfl, rfl, rfl, .inl ⟨?_, rfl⟩⟩
    exact Array.size_replicate
  · rw [hrefused]
    exact .inr ⟨rfl, hlimit⟩

/-- A tree that is printed began with a first size that storage can have. -/
theorem exists_sizeHint_eq {budget : ByteBudget} (h : (t.print options budget).1 = .ok text) :
    ∃ first : Nat, options.sizeHint = first ∧ first ≤ greatestLength := by
  unfold print Buffer.create? at h
  split at h
  · cases h
  · rename_i hcreate
    split at hcreate
    · cases hcreate
    · exact ⟨options.sizeHint.toNat, by omega, by omega⟩

/-- What becomes of a tree under a budget that is printed without one: it is written with the
account of its buffer kept, or the budget is too small. -/
theorem print_doubling {n first : Nat} (h : (t.print options .unlimited).1 = .ok text)
    (hfirst : options.sizeHint = first) (hn : n = (Utf8.encode text).length)
    (hroom : 2 * (n + 1) ≤ greatestLength) (budget : ByteBudget) :
    (∃ b, t.print options budget = (.ok text, b.budget) ∧ Doubling budget first n b) ∨
      (∃ f k granted, t.print options budget = (.error ⟨f, k⟩, { budget with granted }) ∧
        f.code = .allocationFailure ∧ k ≤ n) ∧
        ∃ limit ∈ budget.limit, limit < max options.sizeHint (2 * (n + 1)) := by
  obtain ⟨size, hsize, hle⟩ := exists_sizeHint_eq h
  obtain rfl : size = first := by omega
  obtain ⟨-, -, -, -, hfault, -⟩ := exists_settled_of_print h
  have hzero := zeroFree_pieces options 0 t
  have htext : Piece.written (t.pieces options 0) = Utf8.encode text := by
    rw [written_pieces options 0 t hfault, (of_print h).1]
  unfold print
  rw [hsize]
  rcases create?_cases (n := n) hle budget with ⟨b, hcreate, hb⟩ | ⟨hrefused, limit, hlimit, hlt⟩
  · have hempty := settled_create? hcreate
    have hrun := Writing.run_doubling hb hempty hzero hfault (by
      rw [htext, hn, List.length_nil, Nat.zero_add]) hroom
    simp only [hcreate, document_eq options t hempty]
    rcases hrun with ⟨b', hrun, hb'⟩ | ⟨⟨b', hrun, hb', hoffset⟩, limit, hlimit, hlt⟩
    · have hsettled := (Writing.run_ok hempty hzero hrun).2
      rw [htext, List.nil_append] at hsettled
      have hsame : b'.text = text :=
        Utf8.encode_injective (encode_text_of_settled hsettled ⟨text, rfl⟩)
      rw [hrun]
      exact .inl ⟨b', congrArg (fun out => (Except.ok out, b'.budget)) hsame, hb'⟩
    · rw [hrun]
      refine .inr ⟨⟨.growthRefused, b'.offset.toNat, b'.budget.granted, ?_, rfl,
        Int.toNat_le.2 hoffset⟩, limit, hlimit, by omega⟩
      rw [← hb'.limit]
      rfl
  · rw [hrefused]
    exact .inr ⟨⟨.bufferRefused size, 0, budget.granted, rfl, rfl, Nat.zero_le n⟩, limit, hlimit,
      by omega⟩

end JsonTree

namespace Session

variable {s : Session} {a : Arena} {options : WriteOptions} {id : NodeId} {text : String}

/-- Printing changes nothing in the store but what is left of the byte budget. -/
theorem store_print (options : WriteOptions) (id : NodeId) (s : Session) :
    (s.print options id).2.store =
      s.store.withBytes ((s.store.tree id).print options s.store.bytes).2 := by
  unfold print Store.print
  rcases (s.store.tree id).print options s.store.bytes with ⟨e | text, bytes⟩ <;> rfl

/-- **A byte budget never spoils a text, and growing is paid for by its length.** If a tree is
printed with the arena set aside, and twice its text and a zero byte are no more than storage can
be, then over the arena it is printed as the same text, or is refused room before the text is
complete; it is printed if the limit allows both the first size of the buffer and twice the text
and its zero byte. What printing takes out of the budget is the first size if all of it fits into
that, and otherwise less than four times the text and its zero byte. Nothing else in the store
changes, so no node is taken or released. -/
theorem print_budgeted (ha : s.store.arena = some a)
    (hprint : (s.withoutArena (print options id)).1 = .ok text)
    (hroom : 2 * ((Utf8.encode text).length + 1) ≤ greatestLength) :
    let n := (Utf8.encode text).length
    let printed := s.print options id
    (printed.1 = .ok text ∨
      ∃ e, printed.1 = .error e ∧ e.fault.code = .allocationFailure ∧ e.byteOffset ≤ n) ∧
    ((∀ limit ∈ a.bytes.limit, max options.sizeHint (2 * (n + 1)) ≤ limit) →
      printed.1 = .ok text) ∧
    ∃ granted : Nat,
      printed.2.store =
        { s.store with arena := some { a with bytes := { a.bytes with granted } } } ∧
      (printed.1 = .ok text →
        (n + 1 ≤ options.sizeHint → (granted : Int) = a.bytes.granted + options.sizeHint) ∧
        (options.sizeHint < n + 1 → granted < a.bytes.granted + 4 * (n + 1))) := by
  intro n printed
  rw [print_withoutArena] at hprint
  obtain ⟨first, hfirst, -⟩ := JsonTree.exists_sizeHint_eq hprint
  have hbytes : s.store.bytes = a.bytes := by
    rw [Store.bytes, ha]
    rfl
  have hresult : printed.1 = ((s.store.tree id).print options a.bytes).1 := by
    rw [← hbytes]
    exact print_eq options id s
  have hstore : printed.2.store = { s.store with
      arena := some { a with bytes := ((s.store.tree id).print options a.bytes).2 } } := by
    rw [← hbytes]
    refine (store_print options id s).trans ?_
    rw [Store.withBytes, ha]
    rfl
  rcases JsonTree.print_doubling hprint hfirst rfl hroom a.bytes with
    ⟨b, htree, hb⟩ | ⟨⟨f, k, granted, htree, hcode, hk⟩, limit, hlimit, hlt⟩
  · rw [htree] at hresult hstore
    refine ⟨.inl hresult, fun _ => hresult, b.budget.granted, ?_, fun _ => ⟨fun hlarge => ?_,
      fun hsmall => ?_⟩⟩
    · simp only [hstore, ← hb.limit]
    · rcases hb.spent with ⟨-, hgranted⟩ | ⟨hle, -⟩
      · omega
      · omega
    · rcases hb.spent with ⟨-, hgranted⟩ | ⟨-, hcapacity, hgranted⟩
      · omega
      · omega
  · rw [htree] at hresult hstore
    refine ⟨.inr ⟨_, hresult, hcode, hk⟩, fun hall => ?_, granted, hstore, fun hok => ?_⟩
    · exact absurd (hall limit hlimit) (Int.not_le.2 hlt)
    · rw [hresult] at hok
      cases hok

/-- The text `[null]` has six bytes. From no room at all the buffer grows to four bytes and to
twelve, which is more than the second limit allows. -/
theorem print_budgeted_null_item :
    let s (limit : Int) : Session :=
      ⟨⟨#[⟨.scalar .null, .none, none, none⟩, ⟨.array (some 0), .none, none, none⟩],
        some ⟨[1, 0], some 2, ⟨some limit, 5⟩⟩⟩, none⟩
    (∀ limit ∈ [14, 11], ((s limit).withoutArena (print ⟨false, 0, 1⟩ 1)).1 = .ok "[null]") ∧
      ((s 14).print ⟨false, 0, 1⟩ 1).1 = .ok "[null]" ∧
      (∃ granted, ((s 14).print ⟨false, 0, 1⟩ 1).2.store.arena =
        some ⟨[1, 0], some 2, some 14, granted⟩ ∧ granted < 5 + 28) ∧
      ∃ e, ((s 11).print ⟨false, 0, 1⟩ 1).1 = .error e ∧ e.fault.code = .allocationFailure ∧
        e.byteOffset ≤ 6 := by
  intro s
  have hlarge : ((s 14).withoutArena (print ⟨false, 0, 1⟩ 1)).1 = .ok "[null]" :=
    eq_ok_of_toOption (by decide +kernel)
  have hsmall : ((s 11).withoutArena (print ⟨false, 0, 1⟩ 1)).1 = .ok "[null]" :=
    eq_ok_of_toOption (by decide +kernel)
  have hlength : (Utf8.encode "[null]").length = 6 := by decide
  have hroom : 2 * ((Utf8.encode "[null]").length + 1) ≤ greatestLength := by
    rw [hlength, greatestLength]
    decide
  obtain ⟨-, henough, granted, hstore, hspent⟩ := print_budgeted rfl hlarge hroom
  obtain ⟨hshort, -⟩ := print_budgeted rfl hsmall hroom
  have hok : ((s 14).print ⟨false, 0, 1⟩ 1).1 = .ok "[null]" := by
    refine henough fun limit hlimit => ?_
    cases hlimit
    rw [hlength]
    decide
  refine ⟨by simp [hlarge, hsmall], hok, ⟨granted, by rw [hstore], ?_⟩, ?_⟩
  · have hspent := (hspent hok).2 (by decide)
    rwa [hlength] at hspent
  · have hrefused : ((s 11).print ⟨false, 0, 1⟩ 1).1.toOption = none := by decide +kernel
    rcases hshort with hok | ⟨e, he, hcode, hoffset⟩
    · rw [hok] at hrefused
      cases hrefused
    · exact ⟨e, he, hcode, hlength ▸ hoffset⟩

end Session

end LinkedJson
