import LinkedJson.Buffer.Literal
import LinkedJson.Document.Rendering
import LinkedJson.Proofs.Literal.EscapedText

/-!
# What a buffer holds

A writer goes through two states in turn. `Settled b out` says that `out` stands before the offset
of `b`; `Pending b out token` that moreover `token` and a zero byte stand from the offset on,
without a zero byte in `token`. Writing leads from the first to the second, whether or not the
storage grows, and settling or advancing leads back, both to the same place.
-/

namespace LinkedJson.Buffer

open Ascii StringLiteral

/-- The bytes before the offset. -/
structure Settled (b : Buffer) (out : List UInt8) : Prop where
  offset_eq : b.offset = out.length
  storage : out <+: b.storage.toList

/-- The bytes before the offset, and a token that is written at the offset. -/
structure Pending (b : Buffer) (out token : List UInt8) : Prop where
  offset_eq : b.offset = out.length
  storage : out ++ (token ++ [0]) <+: b.storage.toList
  zero_not_mem : 0 ∉ token

/-! ## Storage -/

theorem toList_overwrite {storage : Array UInt8} {start : Nat} {bytes : List UInt8}
    (h : start + bytes.length ≤ storage.size) :
    (overwrite storage start bytes).toList =
      storage.toList.take start ++ (bytes ++ storage.toList.drop (start + bytes.length)) := by
  have hstart : (storage.toList.take start).length = start := by
    rw [List.length_take, Array.length_toList]
    omega
  apply List.ext_getElem?
  intro i
  rw [Array.getElem?_toList, getElem?_overwrite]
  by_cases hbefore : i < start
  · rw [if_neg (by omega), List.getElem?_append_left (by omega), List.getElem?_take, if_pos hbefore,
      Array.getElem?_toList]
  · rw [List.getElem?_append_right (by omega), hstart]
    by_cases hinside : i < start + bytes.length
    · rw [if_pos (by omega), List.getElem?_append_left (by omega)]
    · rw [if_neg (by omega), List.getElem?_append_right (by omega), List.getElem?_drop,
        Array.getElem?_toList]
      congr 1
      omega

theorem getElem_of_prefix {storage : Array UInt8} {out rest : List UInt8} {b : UInt8}
    (h : out ++ b :: rest <+: storage.toList) :
    ∃ hlt : out.length < storage.size, storage[out.length] = b := by
  obtain ⟨tail, htail⟩ := h
  apply Array.getElem?_eq_some_iff.1
  rw [← Array.getElem?_toList, ← htail]
  simp

/-- What is written ends at its first zero byte. -/
theorem contentEnd_eq {storage : Array UInt8} {out text : List UInt8}
    (h : out ++ (text ++ [0]) <+: storage.toList) (hzero : 0 ∉ text) :
    contentEnd storage out.length = (out ++ text).length := by
  -- the bytes that are looked at move from the text to what is before it
  induction text generalizing out with
  | nil =>
    obtain ⟨hlt, hval⟩ := getElem_of_prefix h
    rw [contentEnd, dif_pos hlt, if_pos hval, List.append_nil]
  | cons b text ih =>
    rw [List.mem_cons, not_or] at hzero
    obtain ⟨hlt, hval⟩ := getElem_of_prefix h
    have hb : ¬ storage[out.length] = 0 := by
      rw [hval]
      exact Ne.symm hzero.1
    rw [List.cons_append, List.append_cons] at h
    have hend := ih h hzero.2
    rw [List.length_append, List.length_singleton, ← List.append_cons] at hend
    rw [contentEnd, dif_pos hlt, if_neg hb, hend]

theorem Settled.offset_nonneg {b : Buffer} {out : List UInt8} (h : Settled b out) :
    0 ≤ b.offset :=
  h.offset_eq ▸ Int.natCast_nonneg out.length

theorem Settled.eq_take {b : Buffer} {out : List UInt8} (h : Settled b out) :
    b.storage.toList.take out.length = out :=
  (List.prefix_iff_eq_take.1 h.storage).symm

/-- Larger storage holds the same. -/
theorem Settled.grow {b : Buffer} {out : List UInt8} (h : Settled b out) {size : Nat}
    (hsize : b.capacity ≤ size) : out <+: (b.grow size).toList := by
  have hkept : before (b.offset + 1) b.storage = b.storage.toList.take (out.length + 1) := by
    rw [h.offset_eq]
    exact before_natCast (out.length + 1) b.storage
  have hfits : 0 + (b.storage.toList.take (out.length + 1)).length ≤
      (Array.replicate size (0 : UInt8)).size := by
    have hlength : b.storage.toList.length = b.capacity := Array.length_toList
    rw [List.length_take, hlength, Array.size_replicate]
    omega
  rw [Buffer.grow, hkept, toList_overwrite hfits, List.take_zero, List.nil_append]
  refine List.IsPrefix.trans ?_ (List.prefix_append ..)
  have hprefix := List.take_prefix_take_left (l := b.storage.toList) (Nat.le_succ out.length)
  rwa [h.eq_take] at hprefix

/-! ## Steps of a writer -/

theorem Settled.reserve? {b b' : Buffer} {out : List UInt8} {needed : Nat} (h : Settled b out)
    (hreserve : b.reserve? needed = some b') :
    Settled b' out ∧ out.length + needed ≤ b'.capacity := by
  obtain ⟨hoffset, hroom⟩ := capacity_of_reserve? hreserve
  rw [h.offset_eq] at hoffset hroom
  refine ⟨⟨hoffset, ?_⟩, by omega⟩
  unfold Buffer.reserve? at hreserve
  dsimp only at hreserve
  split at hreserve
  · cases hreserve
  · split at hreserve
    · cases hreserve
      exact h.storage
    · split at hreserve
      · cases hreserve
      · obtain ⟨budget, -, rfl⟩ := Option.map_eq_some_iff.1 hreserve
        apply h.grow
        have hle : (b.capacity : Int) ≤ grownSize (b.offset + needed).toNat := by
          rw [grownSize]
          omega
        omega

theorem Settled.putAll {b : Buffer} {out text : List UInt8} (h : Settled b out)
    (hzero : 0 ∉ text) (hroom : out.length + (text.length + 1) ≤ b.capacity) :
    Pending (b.putAll b.offset (text ++ [0])) out text := by
  refine ⟨h.offset_eq, ?_, hzero⟩
  rw [h.offset_eq, putAll_natCast]
  show _ <+: (overwrite b.storage out.length (text ++ [0])).toList
  rw [toList_overwrite (by rwa [List.length_append]), h.eq_take]
  exact (List.prefix_append_right_inj out).2 (List.prefix_append ..)

theorem Settled.write? {b b' : Buffer} {out text : List UInt8} {needed : Nat} (h : Settled b out)
    (hzero : 0 ∉ text) (hneeded : text.length + 1 ≤ needed)
    (hwrite : b.write? needed text = some b') : Pending b' out text := by
  obtain ⟨b, hreserve, rfl⟩ := Option.map_eq_some_iff.1 hwrite
  obtain ⟨hsettled, hroom⟩ := h.reserve? hreserve
  exact hsettled.putAll hzero (by omega)

/-- With or without escapes, a literal is written as any other text is. -/
theorem writeLiteral_eq {b : Buffer} (h : 0 ≤ b.offset) (bytes : List UInt8) :
    b.writeLiteral bytes =
      match b.write? ((quote :: escape bytes ++ [quote]).length + 1)
        (quote :: escape bytes ++ [quote]) with
      | none => .error .noRoom
      | some b => .ok b := by
  have hlength : (quote :: escape bytes ++ [quote]).length + 1 = escapedLength bytes + 3 := by
    simp [length_escape]
  rw [hlength, Buffer.writeLiteral]
  split
  · rfl
  · -- nothing is escaped, so the text between the quotes is its own escape
    rename_i hplain
    have hself : escape bytes = bytes := by
      refine escape_eq_self fun b hb => if_neg fun hneeds => ?_
      exact hplain (List.any_eq_true.2 ⟨b, hb, hneeds⟩)
    have hneeded : ((escapedLength bytes + 3 : Nat) : Int) = bytes.length + 3 := by
      rw [← length_escape, hself]
      rfl
    rw [Buffer.write?, hself, hneeded]
    cases hreserve : b.reserve? (bytes.length + 3) with
    | none => rfl
    | some b' =>
      have hoffset : ¬ b'.offset + 1 < 0 := by
        rw [(capacity_of_reserve? hreserve).1]
        omega
      simp only [Option.map_some, if_neg hoffset]
      simp

theorem Pending.settle {b : Buffer} {out text : List UInt8} (h : Pending b out text) :
    Settled b.settle (out ++ text) := by
  refine ⟨?_, ?_⟩
  · show (contentEnd b.storage b.offset.toNat : Int) = _
    rw [h.offset_eq, Int.toNat_natCast, contentEnd_eq h.storage h.zero_not_mem]
  · refine List.IsPrefix.trans ?_ h.storage
    rw [← List.append_assoc]
    exact List.prefix_append ..

theorem Pending.settle_eq_advance {b : Buffer} {out text : List UInt8} (h : Pending b out text) :
    b.settle = b.advance text.length := by
  rw [Buffer.settle, Buffer.advance, h.offset_eq, Int.toNat_natCast,
    contentEnd_eq h.storage h.zero_not_mem, List.length_append, Int.natCast_add]

end LinkedJson.Buffer
