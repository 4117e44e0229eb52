import LinkedJson.Text.Utf8

/-!
# The bytes of encoded text

A character is one byte below 128 or several bytes from 128 on, so a byte below 128 in encoded text
is a character of its own. `WellFormed` is what encoding produces: it holds of bytes below 128 and
of well-formed pieces one after the other.
-/

namespace LinkedJson.Utf8

theorem encode_ofList (cs : List Char) :
    encode (String.ofList cs) = cs.flatMap String.utf8EncodeChar := by
  rw [encode, String.toList_ofList]

theorem encode_ofList_append (cs ds : List Char) :
    encode (String.ofList (cs ++ ds)) = encode (String.ofList cs) ++ encode (String.ofList ds) := by
  rw [encode_ofList, encode_ofList, encode_ofList, List.flatMap_append]

theorem encode_ofList_cons (c : Char) (cs : List Char) :
    encode (String.ofList (c :: cs)) = String.utf8EncodeChar c ++ encode (String.ofList cs) := by
  rw [encode_ofList, encode_ofList, List.flatMap_cons]

theorem encode_ofList_ne_nil {cs : List Char} (h : cs ≠ []) : encode (String.ofList cs) ≠ [] := by
  obtain ⟨c, cs, rfl⟩ := List.exists_cons_of_ne_nil h
  rw [encode_ofList_cons]
  exact List.append_ne_nil_of_left_ne_nil String.utf8EncodeChar_ne_nil _

theorem utf8EncodeChar_of_lt {c : Char} (h : c.toNat < 0x80) :
    String.utf8EncodeChar c = [c.toNat.toUInt8] := by
  rw [String.utf8EncodeChar]
  exact if_pos (Nat.le_of_lt_succ h)

theorem le_of_mem_utf8EncodeChar {c : Char} (h : 0x80 ≤ c.toNat) :
    ∀ b ∈ String.utf8EncodeChar c, 0x80 ≤ b.toNat := by
  have hc : ¬ c.val.toNat ≤ 0x7f := Nat.not_le_of_lt h
  rw [String.utf8EncodeChar, if_neg hc]
  repeat' split
  all_goals
    simp only [List.mem_cons, forall_eq_or_imp, List.not_mem_nil, false_imp_iff, implies_true,
      and_true, UInt8.toNat_ofNat']
    omega

/-- Characters below 128 are encoded one by one. -/
theorem encode_ofList_of_lt {cs : List Char} (h : ∀ c ∈ cs, c.toNat < 0x80) :
    encode (String.ofList cs) = cs.map (·.toNat.toUInt8) := by
  rw [encode_ofList]
  induction cs with
  | nil => rfl
  | cons c cs ih =>
    obtain ⟨hc, hcs⟩ := List.forall_mem_cons.1 h
    rw [List.flatMap_cons, utf8EncodeChar_of_lt hc, ih hcs, List.map_cons, List.singleton_append]

/-- A zero byte is a character of its own. -/
theorem zero_mem_encode_iff {s : String} : 0 ∈ encode s ↔ '\x00' ∈ s.toList := by
  rw [encode, List.mem_flatMap]
  constructor
  · intro h
    obtain ⟨c, hc, hzero⟩ := h
    by_cases hlt : c.toNat < 0x80
    · rw [utf8EncodeChar_of_lt hlt, List.mem_singleton] at hzero
      have hnat : c.toNat = 0 := by
        have := congrArg UInt8.toNat hzero
        simp at this
        omega
      have hchar : c = '\x00' := Char.toNat_inj.1 hnat
      exact hchar ▸ hc
    · exact absurd (le_of_mem_utf8EncodeChar (Nat.le_of_not_lt hlt) 0 hzero) (by decide)
  · intro h
    exact ⟨_, h, by decide⟩

/-! ## Well-formed bytes -/

/-- The bytes encode a string. -/
def WellFormed (bytes : List UInt8) : Prop :=
  ∃ s, encode s = bytes

theorem wellFormed_encode (s : String) : WellFormed (encode s) :=
  ⟨s, rfl⟩

theorem wellFormed_utf8EncodeChar (c : Char) : WellFormed (String.utf8EncodeChar c) :=
  ⟨.singleton c, by simp [encode]⟩

theorem WellFormed.append {xs ys : List UInt8} (hx : WellFormed xs) (hy : WellFormed ys) :
    WellFormed (xs ++ ys) := by
  obtain ⟨s, rfl⟩ := hx
  obtain ⟨t, rfl⟩ := hy
  exact ⟨s ++ t, encode_append s t⟩

theorem wellFormed_flatMap {α : Type} {xs : List α} {f : α → List UInt8}
    (h : ∀ x ∈ xs, WellFormed (f x)) : WellFormed (xs.flatMap f) := by
  induction xs with
  | nil => exact ⟨"", rfl⟩
  | cons x xs ih =>
    obtain ⟨hx, hxs⟩ := List.forall_mem_cons.1 h
    exact hx.append (ih hxs)

theorem toNat_ofNat {n : Nat} (h : n.isValidChar) : (Char.ofNat n).toNat = n := by
  rw [Char.ofNat, dif_pos h]
  rfl

theorem toNat_ofNat_of_lt {n : Nat} (h : n < 0x80) : (Char.ofNat n).toNat = n :=
  toNat_ofNat (.inl (by omega))

theorem wellFormed_of_lt {bytes : List UInt8} (h : ∀ b ∈ bytes, b.toNat < 0x80) :
    WellFormed bytes := by
  have hchars : ∀ c ∈ bytes.map fun b => Char.ofNat b.toNat, c.toNat < 0x80 := by
    intro c hc
    obtain ⟨b, hb, rfl⟩ := List.mem_map.1 hc
    rw [toNat_ofNat_of_lt (h b hb)]
    exact h b hb
  refine ⟨.ofList (bytes.map fun b => .ofNat b.toNat), ?_⟩
  rw [encode_ofList_of_lt hchars, List.map_map]
  refine (List.map_congr_left fun b hb => ?_).trans (List.map_id bytes)
  rw [Function.comp_apply, toNat_ofNat_of_lt (h b hb), id_eq]
  exact UInt8.ofNat_toNat

end LinkedJson.Utf8
