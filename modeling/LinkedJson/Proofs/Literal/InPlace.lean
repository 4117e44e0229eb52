import LinkedJson.Proofs.Literal.NumberParts
import LinkedJson.Proofs.Literal.StringReading
import LinkedJson.Proofs.Text.Offsets

/-!
# Literals in place

String and number literals are read in place, offset by offset: the closing quote is looked for
first, then the escapes are replaced up to it, with a look at up to twelve bytes for a pair of
surrogates; the digits of a number are counted, and then its text is converted.

Each of these scanners reads a literal as `StringLiteral.read` and `NumberLiteral.read` read it at
the front of what is left before the next zero byte (`scansAs_string`, `scansAs_number`), and
`readAt` is such a scanner (`readAt_eq_string`, `readAt_eq_number`).
-/

namespace LinkedJson.InPlace

open Ascii

variable {bytes text rest body behind : List UInt8} {stop i j : Nat} {b c : UInt8}

/-! ## The closing quote -/

/-- The offset of the first quote that no backslash precedes, and whether there was a backslash on
the way; or the offset of the zero byte that comes first. -/
def closingQuote (bytes : List UInt8) (i : Nat) (escaped : Bool) : Except Nat (Nat × Bool) :=
  if h : byteAt bytes i = 0 then .error i
  else if byteAt bytes i = quote then .ok (i, escaped)
  else if byteAt bytes i = backslash then
    if byteAt bytes (i + 1) = 0 then .error (i + 1) else closingQuote bytes (i + 2) true
  else closingQuote bytes (i + 1) escaped
termination_by bytes.length - i
decreasing_by
  all_goals
    have := lt_length_of_byteAt_ne h
    omega

theorem closingQuote_eq {n : Nat} (h : At bytes stop i text) (escaped : Bool) :
    closingQuote bytes i escaped =
      match StringLiteral.bodyLength? n text with
      | none => .error stop
      | some m => .ok (i + (m - n), escaped || (text.take (m - n)).contains backslash) := by
  induction n, text using StringLiteral.bodyLength?.induct generalizing i escaped with
  | case1 n =>
    rw [closingQuote, dif_pos h.byte_nil, ← h.length]
    rfl
  | case2 n text =>
    rw [closingQuote, h.byte, StringLiteral.bodyLength?_quote, dif_neg (by decide), if_pos rfl]
    simp
  | case3 n hquote =>
    rw [closingQuote, h.byte, dif_neg (by decide), if_neg hquote, if_pos rfl, h.tail.byte_nil,
      if_pos rfl, ← h.length]
    rfl
  | case4 n c text hquote ih =>
    have htail := h.tail
    obtain ⟨hc, hzero, hafter⟩ := htail.byte_cons
    rw [closingQuote, h.byte, dif_neg (by decide), if_neg hquote, if_pos rfl, hc, if_neg hzero,
      ih hafter, StringLiteral.bodyLength?_escape]
    cases hm : StringLiteral.bodyLength? (n + 2) text with
    | none => rfl
    | some m =>
      have hle := (StringLiteral.bodyLength?_bounds hm).1
      obtain ⟨k, rfl⟩ := Nat.exists_eq_add_of_le hle
      have hk : n + 2 + k - n = k + 2 := by omega
      simp only [Nat.add_sub_cancel_left, hk, List.take_succ_cons, List.contains_cons, BEq.rfl,
        Bool.true_or, Bool.or_true]
      rw [show i + 1 + 1 + k = i + (k + 2) by omega]
  | case5 n b text hquote hbackslash ih =>
    obtain ⟨hb, hzero, hafter⟩ := h.byte_cons
    rw [closingQuote, hb, dif_neg hzero, if_neg hquote, if_neg hbackslash, ih hafter,
      StringLiteral.bodyLength?_plain hquote hbackslash]
    cases hm : StringLiteral.bodyLength? (n + 1) text with
    | none => rfl
    | some m =>
      have hle := (StringLiteral.bodyLength?_bounds hm).1
      obtain ⟨k, rfl⟩ := Nat.exists_eq_add_of_le hle
      have hk : n + 1 + k - n = k + 1 := by omega
      have hne : (backslash == b) = false := beq_eq_false_iff_ne.2 (Ne.symm hbackslash)
      simp only [Nat.add_sub_cancel_left, hk, List.take_succ_cons, List.contains_cons, hne,
        Bool.false_or]
      rw [show i + 1 + k = i + (k + 1) by omega]

/-! ## Escapes -/

/-- The code unit that four hexadecimal digits write. Behind a byte that is no digit nothing is
looked at. -/
def codeUnit? (bytes : List UInt8) (i : Nat) : Option Nat := do
  let a ← hexValue? (byteAt bytes i)
  let b ← hexValue? (byteAt bytes (i + 1))
  let c ← hexValue? (byteAt bytes (i + 2))
  let d ← hexValue? (byteAt bytes (i + 3))
  return ((a * 16 + b) * 16 + c) * 16 + d

theorem codeUnit?_eq (h : At bytes stop i text) :
    codeUnit? bytes i = Escape.codeUnit? text := by
  unfold codeUnit?
  match text, h with
  | [], h =>
    rw [h.byte_nil]
    rfl
  | [a], h =>
    rw [h.byte, h.tail.byte_nil]
    cases hexValue? a <;> rfl
  | [a, b], h =>
    rw [h.byte, h.tail.byte, h.tail.tail.byte_nil]
    cases hexValue? a <;> cases hexValue? b <;> rfl
  | [a, b, c], h =>
    rw [h.byte, h.tail.byte, h.tail.tail.byte, h.tail.tail.tail.byte_nil]
    cases hexValue? a <;> cases hexValue? b <;> cases hexValue? c <;> rfl
  | a :: b :: c :: d :: text, h =>
    rw [h.byte, h.tail.byte, h.tail.tail.byte, h.tail.tail.tail.byte]
    rfl

/-- Reads the second escape of a pair of surrogates, from its backslash on, in a literal that ends
at the offset `close`. -/
def lowSurrogate (bytes : List UInt8) (i close : Nat) : Except ReadFault Nat :=
  if close - i < 6 ∨ ¬ (byteAt bytes i = backslash ∧ byteAt bytes (i + 1) = 0x75) then
    .error .unpairedSurrogate
  else match codeUnit? bytes (i + 2) with
    | none => .error .badLowSurrogate
    | some unit => if Utf16.isLowSurrogate unit then .ok unit else .error .badLowSurrogate

/-- Reads a Unicode escape, or two of them for a pair of surrogates, from the backslash on, in a
literal that ends at the offset `close`: the code point and the offset behind it. -/
def codePoint (bytes : List UInt8) (i close : Nat) : Except ReadFault (Nat × Nat) :=
  if close - i < 6 then .error .incompleteUnicodeEscape
  else match codeUnit? bytes (i + 2) with
    | none => .error .badUnicodeEscape
    | some unit =>
      if unit = 0 ∨ Utf16.isLowSurrogate unit then .error .badUnicodeEscape
      else if ¬ Utf16.isHighSurrogate unit then .ok (unit, i + 6)
      else do
        let low ← lowSurrogate bytes (i + 6) close
        let point := Utf16.joinSurrogates unit low
        if 0x10ffff < point then .error .codePointOutOfRange
        else .ok (point, i + 12)

/-- Digits that are looked at in a window stand in the text of the window alone. -/
theorem codeUnit?_append (h : At bytes stop i (text ++ behind)) (hlength : 4 ≤ text.length) :
    codeUnit? bytes i = Escape.codeUnit? text := by
  rw [codeUnit?_eq h]
  match text, hlength with
  | a :: b :: c :: d :: text, _ => rfl

theorem lowSurrogate_eq (h : At bytes stop i (text ++ behind)) :
    lowSurrogate bytes i (i + text.length) = Escape.lowSurrogate (min 6 text.length) text := by
  unfold lowSurrogate Escape.lowSurrogate
  by_cases hshort : text.length < 6
  · rw [if_pos (.inl (by omega)), if_pos (.inl (by omega))]
  · obtain ⟨a, b, after, rfl⟩ : ∃ a b after, text = a :: b :: after := by
      match text, hshort with
      | a :: b :: after, _ => exact ⟨a, b, after, rfl⟩
      | [_], hshort => exact absurd (by simp) hshort
      | [], hshort => exact absurd (by simp) hshort
    have hdigits : codeUnit? bytes (i + 2) = Escape.codeUnit? after := by
      refine codeUnit?_append h.tail.tail ?_
      rw [List.length_cons, List.length_cons] at hshort
      omega
    have hwindow : i + (a :: b :: after).length - i < 6 ↔ min 6 (a :: b :: after).length < 6 := by
      omega
    have hstarts : (byteAt bytes i = backslash ∧ byteAt bytes (i + 1) = 0x75) ↔
        Escape.startsUnicode (a :: b :: after) = true := by
      rw [h.byte, h.tail.byte]
      simp [Escape.startsUnicode]
    rw [hdigits]
    exact ite_congr (propext (or_congr hwindow (not_congr hstarts))) (fun _ => rfl) fun _ => rfl

/-- A pair of surrogates ends at an offset as it ends in front of a rest. The bound and the way to
join are left open: with the numbers in the goal the kernel would count down from them. -/
theorem joinedPoint_eq {unit? : Except ReadFault Nat} (bound : Nat) (join : Nat → Nat)
    (hend : ∀ low, unit? = .ok low → stop - rest.length = j) :
    (do
      let low ← unit?
      let point := join low
      if bound < point then .error .codePointOutOfRange else .ok (point, j)) =
      match (do
        let low ← unit?
        let point := join low
        if bound < point then .error .codePointOutOfRange else .ok (point, rest)) with
      | .error fault => .error fault
      | .ok (point, rest) => .ok (point, stop - rest.length) := by
  cases unit? with
  | error fault => rfl
  | ok low =>
    rw [← hend low rfl]
    simp only [bind, Except.bind]
    split <;> rfl

/-- A Unicode escape is read in place as it is read in a text, if its two code units are. -/
theorem codePoint_of_parts {window close : Nat} (hwindow : close - i < 6 ↔ window < 4)
    (hunit : 4 ≤ window → codeUnit? bytes (i + 2) = Escape.codeUnit? text)
    (hlow : 4 ≤ window →
      lowSurrogate bytes (i + 6) close = Escape.lowSurrogate (window - 4) (text.drop 4)) :
    codePoint bytes i close =
      match Escape.codePoint window text with
      | .error fault => .error fault
      | .ok (point, rest) => .ok (point, i + 2 + text.length - rest.length) := by
  unfold codePoint Escape.codePoint
  by_cases hshort : window < 4
  · rw [if_pos (hwindow.2 hshort), if_pos hshort]
  · have hlong := Nat.le_of_not_lt hshort
    rw [if_neg (mt hwindow.1 hshort), if_neg hshort, hunit hlong]
    cases hfirst : Escape.codeUnit? text with
    | none => rfl
    | some unit =>
      have hlength := Escape.lt_length_of_codeUnit? hfirst
      simp only
      by_cases hbad : unit = 0 ∨ Utf16.isLowSurrogate unit = true
      · rw [if_pos hbad, if_pos hbad]
      · rw [if_neg hbad, if_neg hbad]
        by_cases hhigh : ¬ Utf16.isHighSurrogate unit = true
        · rw [if_pos hhigh, if_pos hhigh]
          simp only [List.length_drop]
          rw [show i + 2 + text.length - (text.length - 4) = i + 6 by omega]
        · rw [if_neg hhigh, if_neg hhigh, hlow hlong]
          refine joinedPoint_eq 0x10ffff (Utf16.joinSurrogates unit) fun low hpair => ?_
          have hlength' := (StringLiteral.of_lowSurrogate hpair).2
          rw [List.length_drop] at hlength' ⊢
          omega

theorem codePoint_eq (h : At bytes stop i (backslash :: c :: text ++ behind)) :
    codePoint bytes i (i + 2 + text.length) =
      match Escape.codePoint (text.take 10).length text with
      | .error fault => .error fault
      | .ok (point, rest) => .ok (point, i + 2 + text.length - rest.length) := by
  have hinside : At bytes stop (i + 2) (text ++ behind) := h.tail.tail
  rw [List.length_take]
  refine codePoint_of_parts (by omega) (fun hlong => codeUnit?_append hinside (by omega))
    fun hlong => ?_
  have hsplit : text ++ behind = text.take 4 ++ (text.drop 4 ++ behind) := by
    rw [← List.append_assoc, List.take_append_drop]
  rw [hsplit] at hinside
  have hat := hinside.drop
  rw [List.length_take, Nat.min_eq_left (by omega)] at hat
  have heq := lowSurrogate_eq hat
  rw [List.length_drop] at heq
  rw [show i + 2 + text.length = i + 6 + (text.length - 4) by omega,
    show min 10 text.length - 4 = min 6 (text.length - 4) by omega]
  exact heq

theorem byteAt_add (bytes : List UInt8) (i k : Nat) :
    byteAt bytes (i + k) = ((bytes.drop i).drop k).headD 0 := by
  rw [byteAt_eq, List.drop_drop]

theorem codeUnit?_drop (bytes : List UInt8) (i : Nat) :
    codeUnit? bytes i = Escape.codeUnit? (bytes.drop i) := by
  have hzero : hexValue? 0 = none := rfl
  unfold codeUnit?
  simp only [byteAt_add bytes i, byteAt_eq bytes i]
  match bytes.drop i with
  | [] | [_] | [_, _] | [_, _, _] => simp [Escape.codeUnit?, hzero]
  | _ :: _ :: _ :: _ :: _ => rfl

theorem lowSurrogate_drop (bytes : List UInt8) (i close : Nat) :
    lowSurrogate bytes i close = Escape.lowSurrogate (close - i) (bytes.drop i) := by
  have hstarts : (byteAt bytes i = backslash ∧ byteAt bytes (i + 1) = 0x75) ↔
      Escape.startsUnicode (bytes.drop i) = true := by
    rw [byteAt_add bytes i 1, byteAt_eq bytes i]
    match bytes.drop i with
    | [] | [_] | _ :: _ :: _ => simp [Escape.startsUnicode]
  unfold lowSurrogate Escape.lowSurrogate
  rw [codeUnit?_drop, List.drop_drop]
  exact ite_congr (propext (or_congr Iff.rfl (not_congr hstarts))) (fun _ => rfl) fun _ => rfl

/-- A Unicode escape is read in place as it is read in all the bytes that are left. -/
theorem codePoint_drop (bytes : List UInt8) (i close : Nat) :
    codePoint bytes i close =
      match Escape.codePoint (close - (i + 2)) (bytes.drop (i + 2)) with
      | .error fault => .error fault
      | .ok (point, rest) => .ok (point, i + 2 + (bytes.drop (i + 2)).length - rest.length) := by
  refine codePoint_of_parts (by omega) (fun _ => codeUnit?_drop ..) fun _ => ?_
  rw [lowSurrogate_drop, Nat.sub_sub, List.drop_drop]

/-! ## Items of a body -/

/-- A body in which every escape has a byte behind its backslash. -/
inductive Complete : List UInt8 → Prop
  | nil : Complete []
  | plain {b : UInt8} {body : List UInt8} : b ≠ backslash → Complete body → Complete (b :: body)
  | escape {c : UInt8} {body : List UInt8} : Complete body → Complete (backslash :: c :: body)

theorem complete_of_bodyLength? {n m : Nat} (h : StringLiteral.bodyLength? n text = some m) :
    Complete (text.take (m - n)) := by
  fun_induction StringLiteral.bodyLength? n text with
  | case1 n => cases h
  | case2 n text =>
    cases h
    rw [Nat.sub_self]
    exact .nil
  | case3 n hquote => cases h
  | case4 n c text hquote ih =>
    have hle := (StringLiteral.bodyLength?_bounds h).1
    rw [show m - n = m - (n + 2) + 2 by omega]
    exact .escape (ih h)
  | case5 n b text hquote hbackslash ih =>
    have hle := (StringLiteral.bodyLength?_bounds h).1
    rw [show m - n = m - (n + 1) + 1 by omega]
    exact .plain hbackslash (ih h)

namespace Complete

theorem tail (h : Complete (b :: body)) (hb : b ≠ backslash) : Complete body := by
  cases h with
  | plain _ h => exact h
  | escape h => exact absurd rfl hb

/-- A backslash has a byte behind it. -/
theorem of_escape (h : Complete (backslash :: body)) :
    ∃ c after, body = c :: after ∧ Complete after := by
  cases h with
  | plain hb h => exact absurd rfl hb
  | escape h => exact ⟨_, _, rfl, h⟩

/-- A hexadecimal digit is a byte of its own. -/
theorem tail_of_hexValue? {n : Nat} (h : Complete (b :: body)) (hn : hexValue? b = some n) :
    Complete body := by
  refine h.tail ?_
  rintro rfl
  have hnone : hexValue? backslash = none := rfl
  rw [hnone] at hn
  cases hn

theorem drop_of_codeUnit? {unit : Nat} (h : Complete text)
    (hunit : Escape.codeUnit? text = some unit) : Complete (text.drop 4) := by
  unfold Escape.codeUnit? at hunit
  split at hunit
  · rename_i b₁ b₂ b₃ b₄ after
    simp only [Option.bind_eq_bind, Option.bind_eq_some_iff] at hunit
    obtain ⟨_, h₁, _, h₂, _, h₃, _, h₄, -⟩ := hunit
    have htwo := (h.tail_of_hexValue? h₁).tail_of_hexValue? h₂
    exact (htwo.tail_of_hexValue? h₃).tail_of_hexValue? h₄
  · cases hunit

/-- Behind the second escape of a pair the body is whole again. -/
theorem drop_of_lowSurrogate {window low : Nat} (h : Complete text)
    (hlow : Escape.lowSurrogate window text = .ok low) : Complete (text.drop 6) := by
  cases Escape.lowSurrogateRead hlow with
  | low _ hstarts hunit _ =>
    match text, hstarts with
    | a :: c :: after, hstarts =>
      obtain ⟨rfl, rfl⟩ : a = backslash ∧ c = 0x75 := by simpa [Escape.startsUnicode] using hstarts
      obtain ⟨_, _, heq, hafter⟩ := h.of_escape
      obtain ⟨rfl, rfl⟩ := List.cons.inj heq
      exact hafter.drop_of_codeUnit? hunit
    | [_], hstarts => cases hstarts
    | [], hstarts => cases hstarts

theorem of_codePoint {window point : Nat} (h : Complete text)
    (hpoint : Escape.codePoint window text = .ok (point, rest)) : Complete rest := by
  cases Escape.codePointRead hpoint with
  | unit _ hunit _ _ _ => exact h.drop_of_codeUnit? hunit
  | pair hunit _ hsecond _ =>
    rw [show (10 : Nat) = 4 + 6 from rfl, ← List.drop_drop]
    exact (h.drop_of_codeUnit? hunit).drop_of_lowSurrogate hsecond

theorem of_item {written : List UInt8} (h : Complete body)
    (hitem : StringLiteral.item body = .ok (written, rest)) : Complete rest := by
  unfold StringLiteral.item at hitem
  split at hitem
  · cases hitem
  · split at hitem
    · rename_i hb
      cases hitem
      exact h.tail hb
    · rename_i hb
      rw [ne_eq, Decidable.not_not] at hb
      subst hb
      split at hitem
      · cases hitem
      · obtain ⟨_, _, heq, hafter⟩ := h.of_escape
        obtain ⟨rfl, rfl⟩ := List.cons.inj heq
        split at hitem
        · cases hitem
          exact hafter
        · split at hitem
          · cases hitem
          · split at hitem
            · cases hitem
            · rename_i hpoint
              cases hitem
              exact hafter.of_codePoint hpoint

end Complete

/-- Reads one item of a body that ends at the offset `close`: the bytes that it stands for and the
offset behind it. -/
def itemAt (bytes : List UInt8) (i close : Nat) : Except ReadFault (List UInt8 × Nat) :=
  if byteAt bytes i ≠ backslash then .ok ([byteAt bytes i], i + 1)
  else match Escape.short? (byteAt bytes (i + 1)) with
    | some byte => .ok ([byte], i + 2)
    | none =>
      if byteAt bytes (i + 1) ≠ 0x75 then .error (.unknownEscape (byteAt bytes (i + 1)))
      else match codePoint bytes i close with
        | .error fault => .error fault
        | .ok (point, j) => .ok (String.utf8EncodeChar (Char.ofNat point), j)

theorem itemAt_eq (h : At bytes stop i (body ++ behind)) (hcomplete : Complete body)
    (hne : body ≠ []) :
    itemAt bytes i (i + body.length) =
      match StringLiteral.item body with
      | .error fault => .error fault
      | .ok (written, rest) => .ok (written, i + body.length - rest.length) := by
  obtain ⟨b, inner, rfl⟩ := List.exists_cons_of_ne_nil hne
  unfold itemAt StringLiteral.item
  rw [h.byte]
  by_cases hb : b = backslash
  · subst hb
    obtain ⟨c, after, rfl, -⟩ := hcomplete.of_escape
    rw [h.tail.byte]
    simp only [ne_eq, not_true_eq_false, if_false, List.length_cons]
    cases hshort : Escape.short? c with
    | some byte =>
      simp only
      rw [show i + (after.length + 1 + 1) - after.length = i + 2 by omega]
    | none =>
      by_cases hc : c = 0x75
      · rw [show i + (after.length + 1 + 1) = i + 2 + after.length by omega, codePoint_eq h]
        simp only [hc, not_true_eq_false, if_false]
        cases Escape.codePoint (after.take 10).length after with
        | error fault => rfl
        | ok p => rfl
      · simp only [hc, not_false_eq_true, if_true]
  · simp only [ne_eq, hb, not_false_eq_true, if_true, List.length_cons]
    rw [show i + (inner.length + 1) - inner.length = i + 1 by omega]

theorem lt_of_codePoint {close point : Nat} (h : codePoint bytes i close = .ok (point, j)) :
    i < j := by
  rw [codePoint_drop] at h
  split at h
  · cases h
  · rename_i hpoint
    have hlength := Escape.length_lt_of_codePoint hpoint
    cases h
    omega

/-- An item takes at least one byte. -/
theorem lt_of_itemAt {written : List UInt8} {close : Nat}
    (h : itemAt bytes i close = .ok (written, j)) : i < j := by
  unfold itemAt at h
  split at h
  · cases h
    omega
  · split at h
    · cases h
      omega
    · split at h
      · cases h
      · split at h
        · cases h
        · rename_i hpoint
          cases h
          exact lt_of_codePoint hpoint

/-- Replaces the escapes of a body that ends at the offset `close`. `out` holds, last byte first,
what is already replaced. -/
def unescape (bytes : List UInt8) (i close : Nat) (out : List UInt8) :
    Except (ReadFault × Nat) (List UInt8) :=
  if close ≤ i then .ok out.reverse
  else match h : itemAt bytes i close with
    | .error fault => .error (fault, i)
    | .ok (written, j) =>
      have := lt_of_itemAt h
      unescape bytes j close (written.reverse ++ out)
termination_by close - i

/-- An item is read in place up to where the rest of the body begins. -/
theorem itemAt_of_item {written : List UInt8} (h : At bytes stop i (body ++ behind))
    (hcomplete : Complete body) (hne : body ≠ [])
    (hitem : StringLiteral.item body = .ok (written, rest)) :
    ∃ j, itemAt bytes i (i + body.length) = .ok (written, j) ∧
      j + rest.length = i + body.length ∧ At bytes stop j (rest ++ behind) := by
  have heq := itemAt_eq h hcomplete hne
  rw [hitem] at heq
  obtain ⟨taken, rfl, -⟩ := StringLiteral.within_of_item hitem
  have hend : i + (taken ++ rest).length = i + taken.length + rest.length := by
    rw [List.length_append, Nat.add_assoc]
  refine ⟨i + taken.length, ?_, hend.symm, ?_⟩
  · rw [heq, hend]
    simp only [Nat.add_sub_cancel]
  · rw [List.append_assoc] at h
    exact h.drop

theorem unescape_of_itemAt {close : Nat} {written : List UInt8} (hlt : i < close)
    (h : itemAt bytes i close = .ok (written, j)) (out : List UInt8) :
    unescape bytes i close out = unescape bytes j close (written.reverse ++ out) := by
  rw [unescape, if_neg (Nat.not_le.2 hlt)]
  split
  · rename_i hfault
    rw [h] at hfault
    cases hfault
  · rename_i hok
    rw [h] at hok
    cases hok
    rfl

theorem unescape_of_fault {close : Nat} {fault : ReadFault} (hlt : i < close)
    (h : itemAt bytes i close = .error fault) (out : List UInt8) :
    unescape bytes i close out = .error (fault, i) := by
  rw [unescape, if_neg (Nat.not_le.2 hlt)]
  split
  · rename_i hfault
    rw [h] at hfault
    cases hfault
    rfl
  · rename_i hok
    rw [h] at hok
    cases hok

/-- A fault inside of a body is found at the place where the body from its item on is left. -/
theorem unescape_eq (h : At bytes stop i (body ++ behind)) (hcomplete : Complete body)
    (out : List UInt8) :
    match StringLiteral.unescape body out with
    | .ok written => unescape bytes i (i + body.length) out = .ok written
    | .error (fault, rest) => ∃ j, unescape bytes i (i + body.length) out = .error (fault, j) ∧
        i ≤ j ∧ At bytes stop j (rest ++ behind) := by
  have hlt {body : List UInt8} {i : Nat} (hne : ¬ body.isEmpty = true) : i < i + body.length :=
    Nat.lt_add_of_pos_right (List.length_pos_iff.2 fun hnil => hne (List.isEmpty_iff.2 hnil))
  fun_induction StringLiteral.unescape body out generalizing i with
  | case1 body out hnil =>
    simp only [List.isEmpty_iff.1 hnil]
    rw [unescape]
    exact if_pos (Nat.le_refl i)
  | case2 body out hne fault hfault =>
    have hitem := itemAt_eq h hcomplete fun hnil => hne (List.isEmpty_iff.2 hnil)
    rw [hfault] at hitem
    exact ⟨i, unescape_of_fault (hlt hne) hitem out, Nat.le_refl i, h⟩
  | case3 body out hne written rest hok _ ih =>
    obtain ⟨j, hitem, hend, hafter⟩ :=
      itemAt_of_item h hcomplete (fun hnil => hne (List.isEmpty_iff.2 hnil)) hok
    have hle := lt_of_itemAt hitem
    have hrest := ih hafter (hcomplete.of_item hok)
    rw [unescape_of_itemAt (hlt hne) hitem, ← hend]
    split
    · rename_i hresult
      rw [hresult] at hrest
      exact hrest
    · rename_i hresult
      rw [hresult] at hrest
      obtain ⟨k, hk, hjk, hat⟩ := hrest
      exact ⟨k, hk, by omega, hat⟩

/-! ## Strings -/

/-- The bytes that a body stands for. -/
def bodyBytes (bytes : List UInt8) (i close : Nat) (escaped : Bool) :
    Except (ReadFault × Nat) (List UInt8) :=
  if escaped then unescape bytes i close [] else .ok ((bytes.drop i).take (close - i))

/-- The body that ends at the closing quote is read in place as the front of the text is. -/
theorem bodyBytes_eq {n : Nat} (h : At bytes stop i text)
    (hn : StringLiteral.bodyLength? 0 text = some n) :
    match StringLiteral.bodyBytes (text.take n) with
    | .ok written =>
      bodyBytes bytes i (i + n) ((text.take n).contains backslash) = .ok written
    | .error (fault, rest) => ∃ j,
        bodyBytes bytes i (i + n) ((text.take n).contains backslash) = .error (fault, j) ∧
          i ≤ j ∧ At bytes stop j (rest ++ text.drop n) := by
  have hlt : n < text.length := by simpa using (StringLiteral.bodyLength?_bounds hn).2
  have hlength : (text.take n).length = n := List.length_take_of_le (Nat.le_of_lt hlt)
  rw [← List.take_append_drop n text] at h
  have hbody := unescape_eq h (complete_of_bodyLength? hn) []
  have hslice := h.slice
  rw [hlength] at hbody hslice
  unfold bodyBytes StringLiteral.bodyBytes
  cases (text.take n).contains backslash with
  | true => exact hbody
  | false => exact congrArg Except.ok ((Nat.add_sub_cancel_left ..).symm ▸ hslice)

/-- Reads the string literal at an offset: the string and the offset behind it. -/
def readString (bytes : List UInt8) (start : Nat) : Except (ReadFault × Nat) (String × Nat) :=
  if byteAt bytes start ≠ quote then .error (.expectedString, start)
  else match closingQuote bytes (start + 1) false with
    | .error place => .error (.unterminatedString, place)
    | .ok (close, escaped) =>
      match bodyBytes bytes (start + 1) close escaped with
      | .error e => .error e
      | .ok written =>
        match Utf8.decode? written with
        | none => .error (.notUtf8, start)
        | some s => .ok (s, close + 1)

/-- **A string is read in place as it is read at the front of the text.** -/
theorem scansAs_string (h : At bytes stop i text) :
    ScansAs bytes stop i (readString bytes i) (StringLiteral.read text) := by
  unfold readString StringLiteral.read
  cases text with
  | nil =>
    rw [if_pos (by rw [h.byte_nil]; decide)]
    exact .error (Nat.le_refl i) h
  | cons b inner =>
    rw [h.byte]
    by_cases hb : b = quote
    · subst hb
      have hinner := h.tail
      simp only [ne_eq, not_true_eq_false, if_false]
      rw [closingQuote_eq (n := 0) hinner false]
      cases hn : StringLiteral.bodyLength? 0 inner with
      | none => exact .error h.le h.last
      | some n =>
        have hbody := bodyBytes_eq hinner hn
        simp only [Nat.sub_zero, Bool.false_or]
        cases hwritten : StringLiteral.bodyBytes (inner.take n) with
        | error e =>
          rw [hwritten] at hbody
          obtain ⟨j, hj, hle, hat⟩ := hbody
          rw [hj]
          exact .error (by omega) hat
        | ok written =>
          rw [hwritten] at hbody
          rw [show bodyBytes bytes _ _ _ = _ from hbody]
          simp only
          cases Utf8.decode? written with
          | none => exact .error (Nat.le_refl i) h
          | some s =>
            have hlt : n < inner.length := by simpa using (StringLiteral.bodyLength?_bounds hn).2
            rw [← List.take_append_drop (n + 1) inner] at hinner
            have hafter := hinner.drop
            rw [List.length_take_of_le hlt] at hafter
            exact .ok (by omega) hafter
    · simp only [ne_eq, hb, not_false_eq_true, if_true]
      exact .error (Nat.le_refl i) h

/-! ## Numbers -/

def skipMinus (bytes : List UInt8) (i : Nat) : Nat :=
  if byteAt bytes i = minus then i + 1 else i

/-- Skips a point and the digits after it, if there is a point. -/
def skipFraction (bytes : List UInt8) (i : Nat) : Nat :=
  if byteAt bytes i = point then skipDigits bytes (i + 1) else i

/-- Skips the sign of an exponent, if there is one. -/
def skipSign (bytes : List UInt8) (i : Nat) : Nat :=
  if byteAt bytes i = plus ∨ byteAt bytes i = minus then i + 1 else i

/-- Skips an exponent, or nothing where no digit follows its mark. -/
def skipExponent (bytes : List UInt8) (i : Nat) : Nat :=
  if byteAt bytes i = 0x65 ∨ byteAt bytes i = 0x45 then
    let digits := skipSign bytes (i + 1)
    if isDigit (byteAt bytes digits) then skipDigits bytes digits else i
  else i

/-- The offset behind the number that begins at an offset, if it has a digit before the exponent.
The point of a fraction is skipped with its digits, but is none. -/
def numberEnd? (bytes : List UInt8) (i : Nat) : Option Nat :=
  let whole := skipMinus bytes i
  let fraction := skipDigits bytes whole
  let exponent := skipFraction bytes fraction
  if (fraction - whole) + (exponent - fraction - 1) = 0 then none
  else some (skipExponent bytes exponent)

/-- Reads the number literal at an offset: the value of its text and the offset behind it. -/
def readNumber (bytes : List UInt8) (start : Nat) : Except (ReadFault × Nat) (Double × Nat) :=
  match numberEnd? bytes start with
  | none => .error (.badNumber, start)
  | some close =>
    match NumberLiteral.read ((bytes.drop start).take (close - start)) with
    | .error (fault, _) => .error (fault, start)
    | .ok (d, _) => .ok (d, close)

namespace At

open NumberLiteral

theorem skipMinus (h : At bytes stop i text) :
    At bytes stop (skipMinus bytes i) (takeMinus text).2 := by
  rw [InPlace.skipMinus]
  cases text with
  | nil =>
    rw [h.byte_nil, if_neg (by decide)]
    exact h
  | cons b text =>
    rw [h.byte, takeMinus]
    split
    · exact h.tail
    · exact h

theorem skipDigits (h : At bytes stop i text) :
    At bytes stop (skipDigits bytes i) (takeDigits text).2 :=
  h.skipWhile rfl

theorem skipFraction (h : At bytes stop i text) :
    At bytes stop (skipFraction bytes i) (takeFraction text).2 := by
  rw [InPlace.skipFraction]
  cases text with
  | nil =>
    rw [h.byte_nil, if_neg (by decide)]
    exact h
  | cons b text =>
    rw [h.byte, takeFraction]
    split
    · exact h.tail.skipDigits
    · exact h

theorem skipSign (h : At bytes stop i text) :
    At bytes stop (skipSign bytes i) (takeSign text).2 := by
  rw [InPlace.skipSign]
  cases text with
  | nil =>
    rw [h.byte_nil, if_neg (by decide)]
    exact h
  | cons b text =>
    rw [h.byte, takeSign]
    by_cases hplus : b = plus
    · rw [if_pos (.inl hplus), if_pos hplus]
      exact h.tail
    · rw [if_neg hplus, takeMinus]
      by_cases hminus : b = minus
      · rw [if_pos (.inr hminus), if_pos hminus]
        exact h.tail
      · rw [if_neg (not_or.2 ⟨hplus, hminus⟩), if_neg hminus]
        exact h

/-- A text begins with digits if its first byte is one. -/
theorem isEmpty_takeDigits (h : At bytes stop i text) :
    (takeDigits text).1.isEmpty = !isDigit (byteAt bytes i) := by
  cases text with
  | nil =>
    rw [h.byte_nil]
    rfl
  | cons b text =>
    rw [h.byte, takeDigits, List.takeWhile_cons]
    cases isDigit b <;> rfl

theorem skipExponent (h : At bytes stop i text) :
    At bytes stop (skipExponent bytes i) (takeExponent text).2 := by
  rw [InPlace.skipExponent]
  cases text with
  | nil =>
    rw [h.byte_nil, if_neg (by decide)]
    exact h
  | cons b text =>
    have hdigits := h.tail.skipSign
    rw [h.byte, takeExponent]
    by_cases hmark : b = 0x65 ∨ b = 0x45
    · simp only [hmark, if_true, hdigits.isEmpty_takeDigits]
      cases isDigit (byteAt bytes (InPlace.skipSign bytes (i + 1))) with
      | true => exact hdigits.skipDigits
      | false => exact h
    · simp only [hmark, if_false]
      exact h

end At

/-- The number of bytes between two offsets. -/
theorem sub_eq_length {front : List UInt8} (h : At bytes stop i (front ++ rest))
    (h' : At bytes stop j rest) : j - i = front.length := by
  have hlength := h.length
  have hlength' := h'.length
  rw [List.length_append] at hlength
  omega

/-- The bytes that a fraction takes, without its point. -/
theorem sub_eq_length_takeFraction (h : At bytes stop i text) :
    skipFraction bytes i - i - 1 = (NumberLiteral.takeFraction text).1.length := by
  obtain ⟨fraction, hdigits, -, htext⟩ := NumberLiteral.takeFraction_eq text
  have hlength := sub_eq_length (htext ▸ h) h.skipFraction
  rw [hlength, hdigits]
  cases fraction <;> rfl

/-- The end of a number is where the rest of the text begins. -/
theorem numberEnd?_eq (h : At bytes stop i text) :
    match NumberLiteral.scan? text with
    | none => numberEnd? bytes i = none
    | some (_, rest) => ∃ j, numberEnd? bytes i = some j ∧ At bytes stop j rest := by
  have hwhole := h.skipMinus
  have hfraction := hwhole.skipDigits
  have hexponent := hfraction.skipFraction
  have hcount : skipDigits bytes (skipMinus bytes i) - skipMinus bytes i =
      (NumberLiteral.takeDigits (NumberLiteral.takeMinus text).2).1.length :=
    sub_eq_length (by rwa [NumberLiteral.takeDigits_append_eq]) hfraction
  have hcount' := sub_eq_length_takeFraction hfraction
  unfold NumberLiteral.scan? numberEnd?
  simp only [hcount, hcount', Nat.add_eq_zero_iff, List.length_eq_zero_iff, Bool.and_eq_true,
    List.isEmpty_iff]
  split
  · rename_i hnone
    split at hnone
    · rename_i hempty
      exact if_pos hempty
    · cases hnone
  · rename_i hsome
    split at hsome
    · cases hsome
    · rename_i hempty
      cases hsome
      exact ⟨_, if_neg hempty, hexponent.skipExponent⟩

/-- **A number is read in place as it is read at the front of the text.** -/
theorem scansAs_number (h : At bytes stop i text) :
    ScansAs bytes stop i (readNumber bytes i) (NumberLiteral.read text) := by
  have hend := numberEnd?_eq h
  unfold readNumber
  cases hread : NumberLiteral.read text with
  | error e =>
    unfold NumberLiteral.read at hread
    split at hread
    · rename_i hscan
      cases hread
      rw [hscan] at hend
      rw [show numberEnd? bytes i = none from hend]
      exact .error (Nat.le_refl i) h
    · cases hread
  | ok p =>
    obtain ⟨d, rest⟩ := p
    obtain ⟨literal, rfl, hliteral⟩ := NumberLiteral.eq_append_of_read hread
    unfold NumberLiteral.read at hread
    split at hread
    · cases hread
    · rename_i hscan
      cases hread
      rw [hscan] at hend
      obtain ⟨j, hj, hafter⟩ := hend
      have hslice : (bytes.drop i).take (j - i) = literal := by
        rw [sub_eq_length h hafter, h.slice]
      have hle : i ≤ j := by
        have := h.length
        have := hafter.length
        have hboth : (literal ++ rest).length = literal.length + rest.length := List.length_append
        omega
      rw [hj]
      simp only [hslice, hliteral]
      exact .ok hle hafter

/-! ## Readers at an offset -/

/-- Reading a string literal at an offset is reading it in place. -/
theorem readAt_eq_string (bytes : List UInt8) (i : Nat) :
    StringLiteral.readAt bytes i = outcomeAt (readString bytes i) :=
  (scansAs_string (at_content bytes i)).runAt (at_content bytes i)

/-- Reading a number literal at an offset is reading it in place. -/
theorem readAt_eq_number (bytes : List UInt8) (i : Nat) :
    NumberLiteral.readAt bytes i = outcomeAt (readNumber bytes i) :=
  (scansAs_number (at_content bytes i)).runAt (at_content bytes i)

end LinkedJson.InPlace
