import LinkedJson.StringLiteral.Reading

/-!
# How far a string literal reaches

A literal ends at its first quote that no backslash precedes, so what follows it does not matter:
what is read at the front of a text is read of that front alone (`eq_append_of_read`), and behind a
whole literal anything may stand (`read_append`).
-/

namespace LinkedJson.StringLiteral

open Ascii

/-! ## The closing quote -/

theorem bodyLength?_quote (n : Nat) (text : List UInt8) :
    bodyLength? n (quote :: text) = some n := by
  rw [bodyLength?.eq_def]
  rfl

theorem bodyLength?_escape (n : Nat) (c : UInt8) (text : List UInt8) :
    bodyLength? n (backslash :: c :: text) = bodyLength? (n + 2) text := by
  rw [bodyLength?.eq_def]
  rfl

theorem bodyLength?_plain {b : UInt8} (hq : b ≠ quote) (hb : b ≠ backslash) (n : Nat)
    (text : List UInt8) : bodyLength? n (b :: text) = bodyLength? (n + 1) text := by
  rw [bodyLength?.eq_def]
  simp only [if_neg hq, if_neg hb]

/-- The closing quote is found at the same place whatever follows it. -/
theorem bodyLength?_append {n m : Nat} {text : List UInt8} (h : bodyLength? n text = some m)
    (rest : List UInt8) : bodyLength? n (text ++ rest) = some m := by
  fun_induction bodyLength? n text with
  | case1 n => cases h
  | case2 n text => rw [List.cons_append, bodyLength?_quote, h]
  | case3 n hq => cases h
  | case4 n hq c text ih => rw [List.cons_append, List.cons_append, bodyLength?_escape, ih h]
  | case5 n b text hq hb ih => rw [List.cons_append, bodyLength?_plain hq hb, ih h]

/-- The body and the closing quote are part of the text. -/
theorem bodyLength?_bounds {n m : Nat} {text : List UInt8} (h : bodyLength? n text = some m) :
    n ≤ m ∧ m < n + text.length := by
  fun_induction bodyLength? n text with
  | case1 n => cases h
  | case2 n text =>
    cases h
    simp
  | case3 n hq => cases h
  | case4 n hq c text ih =>
    have := ih h
    simp only [List.length_cons]
    omega
  | case5 n b text hq hb ih =>
    have := ih h
    simp only [List.length_cons]
    omega

/-- The text up to the closing quote has the same body. -/
theorem bodyLength?_take {n m : Nat} {text : List UInt8} (h : bodyLength? n text = some m) :
    bodyLength? n (text.take (m + 1 - n)) = some m := by
  fun_induction bodyLength? n text with
  | case1 n => cases h
  | case2 n text =>
    cases h
    rw [Nat.add_sub_cancel_left, List.take_succ_cons, bodyLength?_quote]
  | case3 n hq => cases h
  | case4 n hq c text ih =>
    have hm := (bodyLength?_bounds h).1
    have e : m + 1 - n = m + 1 - (n + 2) + 1 + 1 := by omega
    rw [e, List.take_succ_cons, List.take_succ_cons, bodyLength?_escape, ih h]
  | case5 n b text hq hb ih =>
    have hm := (bodyLength?_bounds h).1
    have e : m + 1 - n = m + 1 - (n + 1) + 1 := by omega
    rw [e, List.take_succ_cons, bodyLength?_plain hq hb, ih h]

/-! ## Whole literals -/

/-- What a successful reading finds: a quote, a body, and the string that the body stands for. -/
theorem read_eq_ok_iff {text rest : List UInt8} {s : String} :
    read text = .ok (s, rest) ↔ ∃ inner n bytes, text = quote :: inner ∧
      bodyLength? 0 inner = some n ∧ bodyBytes (inner.take n) = .ok bytes ∧
        Utf8.decode? bytes = some s ∧ rest = inner.drop (n + 1) := by
  constructor
  · intro h
    unfold read at h
    split at h
    · cases h
    · rename_i b inner
      split at h
      · cases h
      · rename_i hb
        rw [ne_eq, Decidable.not_not] at hb
        subst hb
        split at h
        · cases h
        · rename_i n hn
          split at h
          · cases h
          · rename_i bytes hbytes
            split at h
            · cases h
            · rename_i hs
              cases h
              exact ⟨inner, n, bytes, rfl, hn, hbytes, hs, rfl⟩
  · intro h
    obtain ⟨inner, n, bytes, rfl, hn, hbytes, hs, rfl⟩ := h
    simp [read, hn, hbytes, hs]

/-- A literal begins with a quote. -/
theorem head_of_read {text rest : List UInt8} {s : String} (h : read text = .ok (s, rest)) :
    ∃ inner, text = quote :: inner := by
  obtain ⟨inner, -, -, rfl, -⟩ := read_eq_ok_iff.1 h
  exact ⟨inner, rfl⟩

/-- Anything may stand behind a whole literal. -/
theorem read_append {literal : List UInt8} {s : String} (h : read literal = .ok (s, []))
    (rest : List UInt8) : read (literal ++ rest) = .ok (s, rest) := by
  obtain ⟨inner, n, bytes, rfl, hn, hbytes, hs, hend⟩ := read_eq_ok_iff.1 h
  have hlen : n < inner.length := by simpa using (bodyLength?_bounds hn).2
  have hdrop : inner.length ≤ n + 1 := List.drop_eq_nil_iff.1 hend.symm
  refine read_eq_ok_iff.2 ⟨inner ++ rest, n, bytes, rfl, bodyLength?_append hn rest, ?_, hs, ?_⟩
  · rw [List.take_append_of_le_length (Nat.le_of_lt hlen)]
    exact hbytes
  · rw [List.drop_append, ← hend, List.nil_append, show n + 1 - inner.length = 0 by omega,
      List.drop_zero]

/-- What is read at the front of a text is a whole literal. -/
theorem eq_append_of_read {text rest : List UInt8} {s : String} (h : read text = .ok (s, rest)) :
    ∃ literal, text = literal ++ rest ∧ read literal = .ok (s, []) := by
  obtain ⟨inner, n, bytes, rfl, hn, hbytes, hs, rfl⟩ := read_eq_ok_iff.1 h
  refine ⟨quote :: inner.take (n + 1), ?_, ?_⟩
  · rw [List.cons_append, List.take_append_drop]
  · refine read_eq_ok_iff.2 ⟨inner.take (n + 1), n, bytes, rfl, ?_, ?_, hs, ?_⟩
    · simpa using bodyLength?_take hn
    · rw [List.take_take, Nat.min_eq_left (Nat.le_succ n)]
      exact hbytes
    · exact (List.drop_eq_nil_iff.2 (List.length_take_le ..)).symm

end LinkedJson.StringLiteral
