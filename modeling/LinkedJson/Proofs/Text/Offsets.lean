import LinkedJson.Scan

/-!
# Texts in place

The readers take the front off a text that ends before its first zero byte. In place, a text is a
list of bytes that may go on behind the zero byte, and all that is asked of it is the byte at an
offset (`byteAt`).

`At bytes stop i text` ties the two together: from the offset `i` on the bytes are `text`, and at
`stop` there is a zero byte or the end. A byte that is read in place is the first one of such a
text, or 0 if the text is empty; so whoever never goes on from a byte 0 sees nothing behind it. A
scanner in place does what a reader of texts does if it `ScansAs` that reader.
-/

namespace LinkedJson.InPlace

open Ascii

variable {bytes text rest word : List UInt8} {stop i j : Nat} {b c : UInt8}

/-- From the offset `i` on the bytes are `text`, up to a zero byte or the end at the offset
`stop`. -/
structure At (bytes : List UInt8) (stop i : Nat) (text : List UInt8) : Prop where
  left : content (bytes.drop i) = text
  length : i + text.length = stop

theorem at_content (bytes : List UInt8) (i : Nat) :
    At bytes (i + (content (bytes.drop i)).length) i (content (bytes.drop i)) :=
  ⟨rfl, rfl⟩

/-- The byte at an offset, and 0 behind the end. -/
def byteAt (bytes : List UInt8) (i : Nat) : UInt8 :=
  byteOrZero bytes i

theorem byteAt_eq (bytes : List UInt8) (i : Nat) : byteAt bytes i = (bytes.drop i).headD 0 := by
  rw [byteAt, byteOrZero, textFrom_natCast]

/-- Only inside the list a byte can be other than 0. -/
theorem lt_length_of_byteAt_ne (h : byteAt bytes i ≠ 0) : i < bytes.length := by
  refine Nat.lt_of_not_le fun hle => h ?_
  rw [byteAt_eq, List.drop_eq_nil_of_le hle]
  rfl

namespace At

theorem le (h : At bytes stop i text) : i ≤ stop :=
  h.length ▸ Nat.le_add_right ..

theorem length_le (h : At bytes stop i text) : text.length ≤ stop :=
  h.length ▸ Nat.le_add_left ..

theorem eq_sub (h : At bytes stop i text) : i = stop - text.length :=
  h.length ▸ (Nat.add_sub_cancel ..).symm

theorem byte_nil (h : At bytes stop i []) : byteAt bytes i = 0 := by
  have hleft := h.left
  rw [byteAt_eq]
  cases hdrop : bytes.drop i with
  | nil => rfl
  | cons b after =>
    rw [hdrop, content, List.takeWhile_cons] at hleft
    by_cases hb : b = 0
    · exact hb
    · simp [hb] at hleft

/-- The first byte of what is left stands at the offset, and behind it is the rest. -/
theorem byte_cons (h : At bytes stop i (b :: text)) :
    byteAt bytes i = b ∧ b ≠ 0 ∧ At bytes stop (i + 1) text := by
  obtain ⟨hleft, hlength⟩ := h
  rw [byteAt_eq]
  have htail : bytes.drop (i + 1) = (bytes.drop i).tail := List.tail_drop.symm
  cases hdrop : bytes.drop i with
  | nil =>
    rw [hdrop] at hleft
    cases hleft
  | cons c after =>
    rw [hdrop, content, List.takeWhile_cons] at hleft
    split at hleft
    · rename_i hc
      obtain ⟨rfl, hafter⟩ := List.cons.inj hleft
      refine ⟨rfl, of_decide_eq_true hc, ?_, ?_⟩
      · rw [htail, hdrop]
        exact hafter
      · rw [← hlength, List.length_cons]
        omega
    · cases hleft

theorem byte (h : At bytes stop i (b :: text)) : byteAt bytes i = b :=
  h.byte_cons.1

theorem tail (h : At bytes stop i (b :: text)) : At bytes stop (i + 1) text :=
  h.byte_cons.2.2

theorem drop {front : List UInt8} (h : At bytes stop i (front ++ text)) :
    At bytes stop (i + front.length) text := by
  induction front generalizing i with
  | nil => exact h
  | cons b front ih =>
    rw [List.length_cons, Nat.add_comm front.length, ← Nat.add_assoc]
    exact ih h.tail

/-- At the end nothing is left. -/
theorem last (h : At bytes stop i text) : At bytes stop stop [] := by
  have hnil : At bytes stop i (text ++ []) := by rwa [List.append_nil]
  exact h.length ▸ hnil.drop

/-- The bytes between two offsets. -/
theorem slice {front : List UInt8} (h : At bytes stop i (front ++ text)) :
    (bytes.drop i).take front.length = front := by
  obtain ⟨hleft, -⟩ := h
  have hprefix : front <+: bytes.drop i :=
    (List.prefix_append front text).trans (hleft ▸ List.takeWhile_prefix _)
  obtain ⟨after, hafter⟩ := hprefix
  rw [← hafter, List.take_left]

end At

/-! ## Classes of bytes -/

/-- The first offset from `i` on whose byte is outside of a class without 0. -/
def skipWhile (bytes : List UInt8) (p : UInt8 → Bool) (hp : p 0 = false) (i : Nat) : Nat :=
  if h : p (byteAt bytes i) = true then skipWhile bytes p hp (i + 1) else i
termination_by bytes.length - i
decreasing_by
  have hne : byteAt bytes i ≠ 0 := fun hzero => by
    rw [hzero, hp] at h
    cases h
  have := lt_length_of_byteAt_ne hne
  omega

theorem At.skipWhile {p : UInt8 → Bool} (hp : p 0 = false) (h : At bytes stop i text) :
    At bytes stop (skipWhile bytes p hp i) (text.dropWhile p) := by
  induction text generalizing i with
  | nil =>
    rw [InPlace.skipWhile, h.byte_nil, dif_neg (by simp [hp])]
    exact h
  | cons b text ih =>
    rw [InPlace.skipWhile, h.byte, List.dropWhile_cons]
    by_cases hb : p b = true
    · rw [dif_pos hb, if_pos hb]
      exact ih h.tail
    · rw [dif_neg hb, if_neg hb]
      exact h

/-- Skips the blanks, which are the bytes from 1 to 32. -/
def skipBlanks (bytes : List UInt8) (i : Nat) : Nat :=
  skipWhile bytes isBlank rfl i

def skipDigits (bytes : List UInt8) (i : Nat) : Nat :=
  skipWhile bytes isDigit rfl i

theorem At.skipBlanks (h : At bytes stop i text) :
    At bytes stop (skipBlanks bytes i) (LinkedJson.skipBlanks text) :=
  h.skipWhile rfl

theorem le_of_dropWhile {p : UInt8 → Bool} (h : At bytes stop i text)
    (h' : At bytes stop j (text.dropWhile p)) : i ≤ j := by
  have hle := (List.dropWhile_suffix p (l := text)).length_le
  have := h.length
  have := h'.length
  omega

/-! ## Words -/

/-- The bytes of a word stand one after another from the offset on. -/
def startsWith (bytes : List UInt8) : (word : List UInt8) → (i : Nat) → Bool
  | [], _ => true
  | b :: word, i => byteAt bytes i == b && startsWith bytes word (i + 1)

/-- A word without zero bytes is looked for byte by byte, and never behind a byte 0. -/
theorem At.startsWith (h : At bytes stop i text) (hword : 0 ∉ word) :
    startsWith bytes word i = word.isPrefixOf text := by
  induction word generalizing i text with
  | nil => rfl
  | cons b word ih =>
    rw [List.mem_cons, not_or] at hword
    rw [InPlace.startsWith]
    cases text with
    | nil =>
      rw [h.byte_nil, beq_eq_false_iff_ne.2 hword.1]
      rfl
    | cons c text =>
      rw [h.byte, ih h.tail hword.2, List.isPrefixOf_cons_cons, BEq.comm]

/-! ## Scanners -/

/-- A scanner in place that began at `i` ends like a reader of texts: with the same value or the
same fault, at the place where the reader has the rest of the text. -/
inductive ScansAs {α : Type} (bytes : List UInt8) (stop i : Nat) :
    Except (ReadFault × Nat) (α × Nat) → Scan (α × List UInt8) → Prop
  | ok {a : α} {j : Nat} {rest : List UInt8} : i ≤ j → At bytes stop j rest →
    ScansAs bytes stop i (.ok (a, j)) (.ok (a, rest))
  | error {fault : ReadFault} {j : Nat} {rest : List UInt8} : i ≤ j → At bytes stop j rest →
    ScansAs bytes stop i (.error (fault, j)) (.error (fault, rest))

/-- The outcome of a scanner in place as that of a reader at an offset. -/
def outcomeAt {α : Type} : Except (ReadFault × Nat) (α × Nat) → Except (ReadFault × Int) (α × Int)
  | .ok (a, j) => .ok (a, j)
  | .error (fault, j) => .error (fault, j)

/-- A scanner in place that does what a reader does is that reader, run at an offset. -/
theorem ScansAs.runAt {α : Type} {scan : Except (ReadFault × Nat) (α × Nat)}
    {read : List UInt8 → Scan (α × List UInt8)} (h : At bytes stop i text)
    (hscan : ScansAs bytes stop i scan (read text)) :
    Scan.runAt read bytes i = outcomeAt scan := by
  have hplace {j : Nat} {rest : List UInt8} (hle : i ≤ j) (hrest : At bytes stop j rest) :
      (i : Int) + (text.length - rest.length : Nat) = j := by
    have := h.length
    have := hrest.length
    omega
  unfold Scan.runAt
  rw [textFrom_natCast, h.left]
  generalize hresult : read text = result at hscan
  cases hscan with
  | ok hle hrest => simp only [hresult, hplace hle hrest, outcomeAt]
  | error hle hrest => simp only [hresult, hplace hle hrest, outcomeAt]

end LinkedJson.InPlace
