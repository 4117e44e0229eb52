import LinkedJson.Proofs.Literal.InPlace
import LinkedJson.Proofs.Writing.Storage

/-!
# The scratch array of a literal

The escapes of a literal are replaced into an array that is made before the first of them is looked
at. It has a byte for every byte from the opening quote to the closing one, that one left out, and
what is put behind its end is lost without a fault.

The array is always large enough, since no item is read as more bytes than it has: the bytes filled
so far never pass those that are read (`Decoding.Fits`). The closing quote is never passed either,
so the loop ends at it. Reading into the array is therefore reading (`readInto_eq`). The code points
on the way are characters other than 0 whose escapes end before the quote, and the check that two
surrogates make no code point that is too large never fails (`decoding_fits`).
-/

namespace LinkedJson.InPlace

open Ascii

variable {bytes written : List UInt8} {start close j : Nat}

/-! ## Reading into the array -/

/-- Where the loop stands: the offset of the next item, the array, and how many bytes of it are
filled. -/
structure Decoding where
  place : Nat
  scratch : Array UInt8
  filled : Nat

namespace Decoding

/-- Behind the opening quote nothing is filled. -/
def first (start close : Nat) : Decoding :=
  ⟨start + 1, .replicate (close - start) 0, 0⟩

/-- The bytes of an item are put into the array, as far as they fit, and reading goes on behind the
item. -/
def next (s : Decoding) (written : List UInt8) (j : Nat) : Decoding :=
  ⟨j, Buffer.overwrite s.scratch s.filled written, s.filled + written.length⟩

/-- The bytes that are filled. -/
def output (s : Decoding) : List UInt8 :=
  s.scratch.toList.take s.filled

end Decoding

/-- Reads the items up to the offset `close` into the array. -/
def decode (bytes : List UInt8) (close : Nat) (s : Decoding) : Except (ReadFault × Nat) Decoding :=
  if close ≤ s.place then .ok s
  else match h : itemAt bytes s.place close with
    | .error fault => .error (fault, s.place)
    | .ok (written, j) =>
      have := lt_of_itemAt h
      decode bytes close (s.next written j)
termination_by close - s.place
decreasing_by
  simp only [Decoding.next]
  omega

/-- Reads the string literal at an offset, with the escapes replaced in an array. -/
def readInto (bytes : List UInt8) (start : Nat) : Except (ReadFault × Nat) (String × Nat) :=
  if byteAt bytes start ≠ quote then .error (.expectedString, start)
  else match closingQuote bytes (start + 1) false with
    | .error place => .error (.unterminatedString, place)
    | .ok (close, escaped) =>
      match
        if escaped then (decode bytes close (.first start close)).map Decoding.output
        else .ok ((bytes.drop (start + 1)).take (close - (start + 1))) with
      | .error e => .error e
      | .ok written =>
        match Utf8.decode? written with
        | none => .error (.notUtf8, start)
        | some s => .ok (s, close + 1)

/-- The states that the loop goes through between the quotes at `start` and `close`. -/
inductive Decodes (bytes : List UInt8) (start close : Nat) : Decoding → Prop
  | first : Decodes bytes start close (.first start close)
  | next {s : Decoding} {written : List UInt8} {j : Nat} (h : Decodes bytes start close s)
    (hlt : s.place < close) (hitem : itemAt bytes s.place close = .ok (written, j)) :
    Decodes bytes start close (s.next written j)

/-! ## The array is large enough -/

/-- No more bytes are filled than are read, and what is left up to the closing quote is a body. -/
structure Decoding.Fits (bytes : List UInt8) (start close : Nat) (s : Decoding) : Prop where
  size_eq : s.scratch.size = close - start
  filled_le : s.filled + (start + 1) ≤ s.place
  left : ∃ stop body behind, At bytes stop s.place (body ++ behind) ∧ Complete body ∧
    s.place + body.length = close

namespace Decoding.Fits

variable {s : Decoding}

theorem first (h : closingQuote bytes (start + 1) false = .ok (close, true)) :
    Fits bytes start close (.first start close) := by
  have hat := at_content bytes (start + 1)
  rw [closingQuote_eq (n := 0) hat] at h
  cases hn : StringLiteral.bodyLength? 0 (content (bytes.drop (start + 1))) with
  | none =>
    rw [hn] at h
    cases h
  | some n =>
    rw [hn] at h
    obtain ⟨rfl, -⟩ := Prod.mk.inj (Except.ok.inj h)
    have hlength : n < (content (bytes.drop (start + 1))).length := by
      simpa using (StringLiteral.bodyLength?_bounds hn).2
    have hcomplete := complete_of_bodyLength? hn
    rw [← List.take_append_drop (n - 0) (content (bytes.drop (start + 1)))] at hat
    refine ⟨Array.size_replicate, Nat.le_of_eq (Nat.zero_add _), _, _, _, hat, hcomplete, ?_⟩
    rw [Nat.sub_zero, List.length_take_of_le (Nat.le_of_lt hlength)]
    rfl

theorem place_le (h : Fits bytes start close s) : s.place ≤ close := by
  obtain ⟨stop, body, behind, -, -, hend⟩ := h.left
  omega

/-- An item is read as no more bytes than it has, and ends in front of the closing quote. -/
theorem of_itemAt (h : Fits bytes start close s) (hlt : s.place < close)
    (hitem : itemAt bytes s.place close = .ok (written, j)) :
    s.place + written.length ≤ j ∧ Fits bytes start close (s.next written j) := by
  obtain ⟨stop, body, behind, hat, hcomplete, hend⟩ := h.left
  have hne : body ≠ [] := by
    rintro rfl
    rw [List.length_nil] at hend
    omega
  have hread := itemAt_eq hat hcomplete hne
  rw [hend, hitem] at hread
  cases hbody : StringLiteral.item body with
  | error fault =>
    rw [hbody] at hread
    cases hread
  | ok p =>
    obtain ⟨written', rest⟩ := p
    obtain ⟨j', hitem', hrest, hat'⟩ := itemAt_of_item hat hcomplete hne hbody
    rw [hend, hitem] at hitem'
    cases hitem'
    have hwithin : written.length + rest.length ≤ body.length := by
      obtain ⟨taken, rfl, hwithin⟩ := StringLiteral.within_of_item hbody
      rw [List.length_append]
      exact Nat.add_le_add_right hwithin.length_le _
    have hle : s.place + written.length ≤ j := by omega
    refine ⟨hle, ?_, ?_, stop, rest, behind, hat', hcomplete.of_item hbody, ?_⟩
    · exact (Buffer.size_overwrite ..).trans h.size_eq
    · have := h.filled_le
      show s.filled + written.length + (start + 1) ≤ j
      omega
    · show j + rest.length = close
      omega

/-- The bytes of an item fit into the array. -/
theorem filled_add_le (h : Fits bytes start close s) (hlt : s.place < close)
    (hitem : itemAt bytes s.place close = .ok (written, j)) :
    s.filled + written.length ≤ s.scratch.size ∧
      s.filled + written.length ≤ j - (start + 1) ∧ j ≤ close := by
  obtain ⟨hle, hnext⟩ := h.of_itemAt hlt hitem
  have hend : j ≤ close := hnext.place_le
  have := h.filled_le
  have := h.size_eq
  omega

end Decoding.Fits

theorem Decodes.fits {s : Decoding} (h : Decodes bytes start close s)
    (hclose : closingQuote bytes (start + 1) false = .ok (close, true)) :
    s.Fits bytes start close := by
  induction h with
  | first => exact .first hclose
  | next h hlt hitem ih => exact (ih.of_itemAt hlt hitem).2

/-! ## No byte is lost -/

/-- What is put behind the filled bytes, inside of the array, is filled. -/
theorem Decoding.output_next {s : Decoding}
    (hfits : s.filled + written.length ≤ s.scratch.size) (j : Nat) :
    (s.next written j).output = s.output ++ written := by
  have hlength : (s.scratch.toList.take s.filled).length = s.filled := by
    rw [List.length_take, Array.length_toList]
    omega
  have hfilled : s.filled + written.length =
      (s.scratch.toList.take s.filled ++ written).length := by
    rw [List.length_append, hlength]
  show (Buffer.overwrite s.scratch s.filled written).toList.take (s.filled + written.length) = _
  rw [Buffer.toList_overwrite hfits, ← List.append_assoc, hfilled, List.take_left]
  rfl

/-- The array holds what the loop has replaced. -/
theorem decode_eq {s : Decoding} (h : s.Fits bytes start close) (out : List UInt8)
    (hout : s.output = out.reverse) :
    (decode bytes close s).map Decoding.output = unescape bytes s.place close out := by
  fun_induction decode bytes close s generalizing out with
  | case1 s hend => rw [unescape, if_pos hend, ← hout]; rfl
  | case2 s hend fault hitem =>
    rw [unescape_of_fault (Nat.lt_of_not_le hend) hitem]
    rfl
  | case3 s hend written j hitem hlt ih =>
    have hbefore := Nat.lt_of_not_le hend
    have hfits := (h.filled_add_le hbefore hitem).1
    rw [unescape_of_itemAt hbefore hitem]
    refine ih (h.of_itemAt hbefore hitem).2 _ ?_
    rw [Decoding.output_next hfits, hout, List.reverse_append, List.reverse_reverse]

/-- A run that reaches the end visits the state that it ends in. -/
theorem Decodes.of_decode {s final : Decoding} (h : Decodes bytes start close s)
    (hdecode : decode bytes close s = .ok final) :
    Decodes bytes start close final ∧ close ≤ final.place := by
  fun_induction decode bytes close s with
  | case1 s hend =>
    cases hdecode
    exact ⟨h, hend⟩
  | case2 s hend fault hitem => cases hdecode
  | case3 s hend written j hitem hlt ih => exact ih (h.next (Nat.lt_of_not_le hend) hitem) hdecode

/-- **Reading with the array is reading.** -/
theorem readInto_eq (bytes : List UInt8) (start : Nat) :
    readInto bytes start = readString bytes start := by
  unfold readInto readString
  split
  · rfl
  · cases hclose : closingQuote bytes (start + 1) false with
    | error place => rfl
    | ok found =>
      obtain ⟨close, escaped⟩ := found
      cases escaped with
      | false => rfl
      | true =>
        have hdecode := decode_eq (.first hclose) [] List.take_zero
        simp only [if_true, bodyBytes, hdecode]
        rfl

/-! ## Code points -/

/-- A Unicode escape ends inside of its window. -/
theorem length_le_of_codePoint {window point : Nat} {text rest : List UInt8}
    (h : Escape.codePoint window text = .ok (point, rest)) :
    text.length ≤ rest.length + window := by
  cases Escape.codePointRead h with
  | unit hwindow _ _ _ _ =>
    rw [List.length_drop]
    omega
  | pair _ _ hsecond _ =>
    cases Escape.lowSurrogateRead hsecond with
    | low hwindow _ _ _ =>
      rw [List.length_drop]
      omega

/-- No two surrogates are joined to a number that is too large. -/
theorem codePoint_ne_outOfRange (window : Nat) (text : List UInt8) :
    Escape.codePoint window text ≠ .error .codePointOutOfRange := by
  intro h
  cases Escape.codePointRead h with
  | badPair hsecond => cases Escape.lowSurrogateRead hsecond

/-- The escape that the loop reads is the one at that offset. -/
theorem codePointAt_eq (bytes : List UInt8) (i close : Nat) :
    Escape.codePointAt bytes i close =
      outcomeAt ((codePoint bytes i close).mapError fun fault => (fault, i)) := by
  have hwindow : ((close : Int) - (i + 2)).toNat = close - (i + 2) := by omega
  have htext : textFrom bytes ((i : Int) + 2) = bytes.drop (i + 2) := textFrom_natCast ..
  rw [codePoint_drop, Escape.codePointAt]
  simp only [hwindow, htext]
  cases hpoint : Escape.codePoint (close - (i + 2)) (bytes.drop (i + 2)) with
  | error fault => rfl
  | ok p =>
    have hlt := Escape.length_lt_of_codePoint hpoint
    have hend : (i : Int) + 2 + ((bytes.drop (i + 2)).length - p.2.length : Nat) =
        (i + 2 + (bytes.drop (i + 2)).length - p.2.length : Nat) := by
      omega
    exact congrArg (fun j => Except.ok (p.1, j)) hend

/-- What is read at an offset is a character other than 0, and ends inside of the literal. -/
theorem of_codePointAt {i j close : Int} {point : Nat}
    (h : Escape.codePointAt bytes i close = .ok (point, j)) :
    point ≠ 0 ∧ point.isValidChar ∧ j ≤ close := by
  unfold Escape.codePointAt at h
  simp only at h
  split at h
  · rename_i rest hpoint
    cases h
    obtain ⟨hvalid, hne, digits, htext, hdigits⟩ := StringLiteral.of_codePoint hpoint
    have hlength := length_le_of_codePoint hpoint
    rw [htext, List.length_append] at hlength ⊢
    exact ⟨hne, hvalid, by omega⟩
  · cases h

theorem codePointAt_ne_outOfRange (bytes : List UInt8) (i close place : Int) :
    Escape.codePointAt bytes i close ≠ .error (.codePointOutOfRange, place) := by
  intro h
  unfold Escape.codePointAt at h
  simp only at h
  split at h
  · cases h
  · rename_i hfault
    cases h
    exact codePoint_ne_outOfRange _ _ hfault

/-! ## Decoding -/

/-- The array is large enough for the literal between the quotes at `start` and `close`, whatever
state the loop goes through, and the loop ends at the closing quote. -/
structure Suffices (bytes : List UInt8) (start close : Nat) : Prop where
  size_eq : ∀ s, Decodes bytes start close s → s.scratch.size = close - start
  fits : ∀ s written j, Decodes bytes start close s → s.place < close →
    itemAt bytes s.place close = .ok (written, j) →
    s.filled + written.length ≤ s.scratch.size ∧
      s.filled + written.length ≤ j - (start + 1) ∧ j ≤ close
  place_eq : ∀ s, Decodes bytes start close s → close ≤ s.place → s.place = close
  ends : ∀ final, decode bytes close (.first start close) = .ok final → final.place = close

theorem suffices_of_closingQuote (h : closingQuote bytes (start + 1) false = .ok (close, true)) :
    Suffices bytes start close where
  size_eq _ hs := (hs.fits h).size_eq
  fits _ _ _ hs hlt hitem := (hs.fits h).filled_add_le hlt hitem
  place_eq _ hs hend := Nat.le_antisymm (hs.fits h).place_le hend
  ends _ hdecode :=
    have ⟨hfinal, hend⟩ := Decodes.of_decode .first hdecode
    Nat.le_antisymm (hfinal.fits h).place_le hend

/-- **Decoding a literal never overflows its array.** A literal is read with an array for its
escapes, the array is large enough, and a code point is a character other than 0 whose escape ends
inside of the literal. -/
theorem decoding_fits (bytes : List UInt8) :
    (∀ start : Nat, StringLiteral.readAt bytes start = outcomeAt (readInto bytes start)) ∧
    (∀ start : Int, start < 0 →
      StringLiteral.readAt bytes start = .error (.expectedString, start)) ∧
    (∀ start close, closingQuote bytes (start + 1) false = .ok (close, true) →
      Suffices bytes start close) ∧
    (∀ i close : Nat, Escape.codePointAt bytes i close =
      outcomeAt ((codePoint bytes i close).mapError fun fault => (fault, i))) ∧
    (∀ (i close j : Int) (point : Nat), Escape.codePointAt bytes i close = .ok (point, j) →
      point ≠ 0 ∧ point.isValidChar ∧ j ≤ close) ∧
    ∀ i close place : Int,
      Escape.codePointAt bytes i close ≠ .error (.codePointOutOfRange, place) := by
  refine ⟨fun start => ?_, fun start hnegative => ?_, fun _ _ => suffices_of_closingQuote,
    codePointAt_eq bytes, fun _ _ _ _ => of_codePointAt, codePointAt_ne_outOfRange bytes⟩
  · rw [readInto_eq, readAt_eq_string]
  · simp [StringLiteral.readAt, Scan.runAt, textFrom, hnegative, content, StringLiteral.read]

/-- The literal of a short escape and a pair of surrogates. The pair is read as the last four
bytes that are filled, with thirteen left over. -/
theorem decoding_fits_pair :
    let bytes : List UInt8 := [0x22, 0x5c, 0x75, 0x30, 0x30, 0x65, 0x39,
      0x5c, 0x75, 0x64, 0x38, 0x33, 0x64, 0x5c, 0x75, 0x64, 0x65, 0x30, 0x30, 0x22]
    let s : Decoding := (Decoding.first 0 19).next [0xc3, 0xa9] 7
    closingQuote bytes 1 false = .ok (19, true) ∧ Decodes bytes 0 19 s ∧
      itemAt bytes s.place 19 = .ok ([0xf0, 0x9f, 0x98, 0x80], 19) ∧
      s.filled + 4 ≤ s.scratch.size ∧ s.filled + 4 ≤ 19 - 1 ∧
      Escape.codePointAt bytes 7 19 = .ok (0x1f600, 19) ∧ Nat.isValidChar 0x1f600 := by
  intro bytes s
  have hclose : closingQuote bytes 1 false = .ok (19, true) := by decide +kernel
  have hfirst : itemAt bytes 1 19 = .ok ([0xc3, 0xa9], 7) := by decide +kernel
  have hsecond : itemAt bytes 7 19 = .ok ([0xf0, 0x9f, 0x98, 0x80], 19) := by decide +kernel
  have hpoint : Escape.codePointAt bytes 7 19 = .ok (0x1f600, 19) := by decide +kernel
  have hs : Decodes bytes 0 19 s := .next .first (by decide) hfirst
  obtain ⟨-, -, hsuffices, -, hpoints, -⟩ := decoding_fits bytes
  obtain ⟨hfits, hread, -⟩ := (hsuffices 0 19 hclose).fits s _ _ hs (by decide) hsecond
  exact ⟨hclose, hs, hsecond, hfits, hread, hpoint, (hpoints 7 19 19 _ hpoint).2.1⟩

end LinkedJson.InPlace
