import LinkedJson.Proofs.Writing.Room
import LinkedJson.Proofs.Writing.WrittenLiterals

/-!
# The bytes of a literal, one by one

The room that a literal needs is counted before it is written, and a byte that is put outside of the
storage is lost without a fault. So the count has to agree with what is written for every single
byte. A `Writer` puts bytes one after another and keeps a `Journal` of them with their places,
whether the storage has these places or not.

`Writer.literal` writes a literal as it stands or escape by escape, and it is `writeLiteral`
(`Writer.literal_eq`). What it puts are the bytes of the literal and a zero byte, at the places from
the offset on, as many as were counted and all of them inside of the storage
(`literal_exact`).
-/

namespace LinkedJson.Buffer

open Ascii StringLiteral

variable {b : Buffer} {place : Int} {xs ys bytes : List UInt8}

/-! ## Bytes and their places -/

/-- Bytes with the places that they are put at, from a place on. -/
def placed (place : Int) : List UInt8 → List (Int × UInt8)
  | [] => []
  | b :: bytes => (place, b) :: placed (place + 1) bytes

theorem length_placed (place : Int) (bytes : List UInt8) :
    (placed place bytes).length = bytes.length := by
  induction bytes generalizing place with
  | nil => rfl
  | cons b bytes ih => rw [placed, List.length_cons, List.length_cons, ih]

theorem placed_append (place : Int) (xs ys : List UInt8) :
    placed place (xs ++ ys) = placed place xs ++ placed (place + xs.length) ys := by
  induction xs generalizing place with
  | nil => simp [placed]
  | cons b xs ih =>
    rw [List.cons_append, placed, ih, placed, List.cons_append, List.length_cons, Int.natCast_add,
      Int.add_assoc, Int.add_comm 1, ← Int.natCast_add]
    rfl

/-- Every byte stands at the place of its own. -/
theorem exists_of_mem_placed {w : Int × UInt8} (h : w ∈ placed place bytes) :
    ∃ i : Nat, bytes[i]? = some w.2 ∧ w.1 = place + i := by
  induction bytes generalizing place with
  | nil => cases h
  | cons b bytes ih =>
    rcases List.mem_cons.1 h with rfl | h
    · exact ⟨0, rfl, (Int.add_zero place).symm⟩
    · obtain ⟨i, hi, hplace⟩ := ih h
      refine ⟨i + 1, hi, ?_⟩
      rw [hplace, Int.natCast_add, Int.add_assoc, Int.add_comm 1]
      rfl

/-! ## Bytes one after another -/

theorem putAll_nil (place : Int) (b : Buffer) : b.putAll place [] = b := by
  rw [putAll, List.drop_nil]
  rfl

theorem putAll_cons (place : Int) (x : UInt8) (xs : List UInt8) (b : Buffer) :
    b.putAll place (x :: xs) = (b.putAll place [x]).putAll (place + 1) xs := by
  unfold putAll
  by_cases hplace : 0 ≤ place
  · have hskip : (-place).toNat = 0 ∧ (-(place + 1)).toNat = 0 := by omega
    have hnext : (place + 1).toNat = place.toNat + 1 := by omega
    rw [hskip.1, hskip.2, hnext]
    rfl
  · -- the first byte is in front of the storage
    obtain ⟨k, hk⟩ : ∃ k, (-place).toNat = k + 1 := ⟨(-place).toNat - 1, by omega⟩
    have hskip : (-(place + 1)).toNat = k := by omega
    have hstart : (place + 1).toNat = place.toNat := by omega
    rw [hk, hskip, hstart, List.drop_succ_cons, List.drop_succ_cons, List.drop_nil]
    rfl

/-- What is put in two parts, the second one behind the first, is put at once. -/
theorem putAll_putAll (place : Int) (xs ys : List UInt8) (b : Buffer) :
    (b.putAll place xs).putAll (place + xs.length) ys = b.putAll place (xs ++ ys) := by
  induction xs generalizing place b with
  | nil => rw [putAll_nil, List.length_nil, Int.natCast_zero, Int.add_zero, List.nil_append]
  | cons x xs ih =>
    have hplace : place + (x :: xs).length = place + 1 + xs.length := by
      rw [List.length_cons]
      omega
    rw [putAll_cons, hplace, ih, List.cons_append, ← putAll_cons]

/-- Where no byte needs an escape, the body is the text. -/
theorem escape_of_plain (h : bytes.any needsEscape = false) : escape bytes = bytes :=
  escape_eq_self fun b hb => if_neg (Bool.not_eq_true _ ▸ List.any_eq_false.1 h b hb)

/-! ## Writers -/

/-- A buffer, and all that a writer has put there, first byte first. -/
structure Journal where
  buffer : Buffer
  writes : List (Int × UInt8)

namespace Journal

/-- The journal after bytes were put from a place on. -/
def put (place : Int) (bytes : List UInt8) (s : Journal) : Journal :=
  ⟨s.buffer.putAll place bytes, s.writes ++ placed place bytes⟩

theorem put_nil (place : Int) (s : Journal) : s.put place [] = s := by
  rw [put, putAll_nil, placed, List.append_nil]

theorem put_put (place : Int) (xs ys : List UInt8) (s : Journal) :
    (s.put place xs).put (place + xs.length) ys = s.put place (xs ++ ys) := by
  unfold put
  rw [putAll_putAll, placed_append, List.append_assoc]

end Journal

/-- A step of writing: it may end in a misfit, and what was put before stays. -/
abbrev Writer :=
  EStateM Misfit Journal

namespace Writer

/-- Makes room in the buffer. -/
def room (needed : Int) : Writer (Option Int) := fun s =>
  match makeRoom needed s.buffer with
  | .ok place b => .ok place { s with buffer := b }
  | .error e b => .error e { s with buffer := b }

/-- Puts one byte at a place. The answer is the place behind it. -/
def put (place : Int) (byte : UInt8) : Writer Int := do
  modify (·.put place [byte])
  return place + 1

/-- Puts bytes at a place if all of them fit. -/
def putWhole (place : Int) (bytes : List UInt8) : Writer Int := do
  match (← get).buffer.putWhole? place bytes with
  | none => throw .misfit
  | some _ =>
    modify (·.put place bytes)
    return place + bytes.length

/-- Puts bytes at a place, one by one. -/
def putText (place : Int) : List UInt8 → Writer Int
  | [] => return place
  | b :: bytes => do putText (← put place b) bytes

/-- The hexadecimal digits of a byte, without a zero in front. -/
def hexDigits (c : UInt8) : List UInt8 :=
  if c.toNat < 16 then [hexDigit c.toNat] else [hexDigit (c.toNat / 16), hexDigit (c.toNat % 16)]

/-- Puts a byte of the body of a literal: as it stands, with its short escape, or with its code. -/
def putEscaped (place : Int) (c : UInt8) : Writer Int := do
  if ¬ needsEscape c then
    put place c
  else
    let place ← put place backslash
    match shortEscape? c with
    | some letter => put place letter
    | none => putText place (0x75 :: (hexDigits c).leftpad 4 zero)

def putBody (place : Int) : List UInt8 → Writer Int
  | [] => return place
  | c :: bytes => do putBody (← putEscaped place c) bytes

/-- Puts a body between quotes, and a zero byte behind them. -/
def putQuoted (body : Int → Writer Int) (place : Int) : Writer Int := do
  let place ← put place quote
  let place ← body place
  let place ← put place quote
  put place 0

/-- Writes a body between quotes after making room. The answer is whether there was room. -/
def quoted (needed : Nat) (body : Int → Writer Int) : Writer Bool := do
  match ← room needed with
  | none => return false
  | some place =>
    let _ ← putQuoted body place
    return true

/-- The room that is counted for one byte of a body. -/
def countedWidth (c : UInt8) : Nat :=
  if c = quote ∨ c = backslash ∨ c = 0x08 ∨ c = 0x0c ∨ c = 0x0a ∨ c = 0x0d ∨ c = 0x09 then 2
  else if c < 0x20 then 6
  else 1

/-- The room that is counted for a body. -/
def counted (bytes : List UInt8) : Nat :=
  bytes.foldl (fun n c => n + countedWidth c) 0

/-- Writes the literal of a text in which no byte needs an escape. -/
def verbatim (bytes : List UInt8) : Writer Bool :=
  quoted (bytes.length + 3) (putWhole · bytes)

/-- Writes the literal of a text, escape by escape. -/
def escaped (bytes : List UInt8) : Writer Bool :=
  quoted (counted bytes + 3) (putBody · bytes)

/-- Writes the literal of a text. -/
def literal (bytes : List UInt8) : Writer Bool :=
  if bytes.any needsEscape then escaped bytes else verbatim bytes

/-! ## What the steps put -/

/-- A step puts these bytes from a place on, and answers with the place behind them. -/
def Puts (step : Int → Writer Int) (bytes : List UInt8) (place : Int) (s : Journal) : Prop :=
  step place s = .ok (place + bytes.length) (s.put place bytes)

section

variable {α β : Type} {s s' : Journal} {c : UInt8}

theorem bind_apply_of_ok {x : Writer α} {a : α} (h : x s = .ok a s') (f : α → Writer β) :
    (x >>= f) s = f a s' := by
  show EStateM.bind x f s = f a s'
  rw [EStateM.bind, h]

theorem bind_apply_of_error {x : Writer α} {e : Misfit} (h : x s = .error e s')
    (f : α → Writer β) : (x >>= f) s = .error e s' := by
  show EStateM.bind x f s = .error e s'
  rw [EStateM.bind, h]

theorem puts_nil : Puts pure [] place s := by
  rw [Puts, s.put_nil]
  exact congrArg (EStateM.Result.ok · s) (Int.add_zero place).symm

theorem put_apply (place : Int) (byte : UInt8) (s : Journal) :
    put place byte s = .ok (place + 1) (s.put place [byte]) :=
  rfl

theorem puts_put : Puts (put · c) [c] place s :=
  put_apply place c s

theorem Puts.append {x y : Int → Writer Int} (hx : Puts x xs place s)
    (hy : Puts y ys (place + xs.length) (s.put place xs)) :
    Puts (fun place => x place >>= y) (xs ++ ys) place s := by
  show (x place >>= y) s = _
  rw [bind_apply_of_ok hx, hy, s.put_put, List.length_append, Int.natCast_add, Int.add_assoc]

theorem puts_putText : Puts (putText · bytes) bytes place s := by
  induction bytes generalizing place s with
  | nil => exact puts_nil
  | cons b bytes ih => exact puts_put.append ih

theorem puts_putWhole (hfront : 0 ≤ place) (hfits : place + bytes.length ≤ s.buffer.capacity) :
    Puts (putWhole · bytes) bytes place s := by
  have hput : s.buffer.putWhole? place bytes = some (s.buffer.putAll place bytes) :=
    if_pos ⟨hfront, hfits⟩
  show putWhole place bytes s = _
  rw [putWhole, get_bind_apply, hput]
  rfl

/-- Bytes that would begin in front of the storage are put nowhere. -/
theorem putWhole_apply_of_lt (hfront : place < 0) :
    putWhole place bytes s = .error .misfit s := by
  have hput : s.buffer.putWhole? place bytes = none := if_neg fun h => Int.not_le.2 hfront h.1
  rw [putWhole, get_bind_apply, hput]
  rfl

/-- Padded to four digits, the code of a byte begins with two zeros. -/
theorem leftpad_hexDigits (c : UInt8) :
    (hexDigits c).leftpad 4 zero =
      [zero, zero, hexDigit (c.toNat / 16), hexDigit (c.toNat % 16)] := by
  unfold hexDigits
  split
  · rename_i hlt
    rw [Nat.div_eq_of_lt hlt, Nat.mod_eq_of_lt hlt]
    rfl
  · rfl

theorem puts_putEscaped : Puts (putEscaped · c) (escapeByte c) place s := by
  unfold putEscaped escapeByte
  cases needsEscape c with
  | false => exact puts_put
  | true =>
    simp only [not_true_eq_false, if_false, if_true]
    cases shortEscape? c with
    | some letter => exact puts_put.append puts_put
    | none =>
      rw [leftpad_hexDigits]
      exact puts_put.append puts_putText

theorem puts_putBody : Puts (putBody · bytes) (escape bytes) place s := by
  induction bytes generalizing place s with
  | nil => exact puts_nil
  | cons c bytes ih => exact puts_putEscaped.append ih

theorem Puts.quoted {body : Int → Writer Int} {text : List UInt8}
    (h : Puts body text (place + 1) (s.put place [quote])) :
    Puts (putQuoted body) (quote :: text ++ [quote, 0]) place s := by
  have hend {place : Int} {s : Journal} :
      Puts (fun place => put place quote >>= (put · 0)) [quote, 0] place s :=
    puts_put.append puts_put
  exact puts_put.append (h.append hend)

theorem room_of_none {needed : Int} (hroom : s.buffer.reserve? needed = none) :
    room needed s = .ok none s := by
  rw [room, makeRoom_eq, hroom]

theorem room_of_some {needed : Int} (hroom : s.buffer.reserve? needed = some b) :
    room needed s = .ok (some b.offset) ⟨b, s.writes⟩ := by
  rw [room, makeRoom_eq, hroom, (capacity_of_reserve? hroom).1]

/-- Where there is no room, nothing is put. -/
theorem quoted_of_none {needed : Nat} {body : Int → Writer Int}
    (hroom : s.buffer.reserve? needed = none) : quoted needed body s = .ok false s :=
  bind_apply_of_ok (room_of_none hroom) _

/-- Where there is room, a body is put between quotes, if it is put at all. -/
theorem quoted_of_some {needed : Nat} {body : Int → Writer Int} (text : List UInt8)
    (hroom : s.buffer.reserve? needed = some b)
    (hbody : Puts body text (b.offset + 1) (Journal.put b.offset [quote] ⟨b, s.writes⟩)) :
    quoted needed body s =
      .ok true (Journal.put b.offset (quote :: text ++ [quote, 0]) ⟨b, s.writes⟩) := by
  rw [quoted, bind_apply_of_ok (room_of_some hroom)]
  exact bind_apply_of_ok hbody.quoted _

/-! ## The room that is counted -/

/-- The widths that are counted are those of the escapes. -/
theorem countedWidth_eq (c : UInt8) : countedWidth c = escapedWidth c := by
  unfold countedWidth escapedWidth shortEscape?
  grind

theorem counted_eq (bytes : List UInt8) : counted bytes = escapedLength bytes := by
  have hfold (n : Nat) :
      bytes.foldl (fun n c => n + countedWidth c) n = n + escapedLength bytes := by
    induction bytes generalizing n with
    | nil => rfl
    | cons c bytes ih => rw [List.foldl_cons, ih, countedWidth_eq, escapedLength, Nat.add_assoc]
  rw [counted, hfold, Nat.zero_add]

/-! ## Literals -/

theorem escaped_of_some (hroom : s.buffer.reserve? (escapedLength bytes + 3 : Nat) = some b) :
    escaped bytes s =
      .ok true (Journal.put b.offset (quote :: escape bytes ++ [quote, 0]) ⟨b, s.writes⟩) := by
  rw [escaped, counted_eq]
  exact quoted_of_some (escape bytes) hroom puts_putBody

theorem verbatim_of_some (hroom : s.buffer.reserve? (bytes.length + 3 : Nat) = some b)
    (hoffset : 0 ≤ b.offset + 1) :
    verbatim bytes s =
      .ok true (Journal.put b.offset (quote :: bytes ++ [quote, 0]) ⟨b, s.writes⟩) := by
  refine quoted_of_some bytes hroom (puts_putWhole hoffset ?_)
  have hcapacity : (b.putAll b.offset [quote]).capacity = b.capacity := size_overwrite ..
  have hend := (capacity_of_reserve? hroom).2
  rw [← (capacity_of_reserve? hroom).1] at hend
  show b.offset + 1 + bytes.length ≤ (b.putAll b.offset [quote]).capacity
  rw [hcapacity]
  omega

/-- In front of the storage not even the opening quote is put. -/
theorem verbatim_of_lt (hroom : s.buffer.reserve? (bytes.length + 3 : Nat) = some b)
    (hoffset : b.offset + 1 < 0) :
    verbatim bytes s = .error .misfit ⟨b, s.writes ++ [(b.offset, quote)]⟩ := by
  have hlost : b.putAll b.offset [quote] = b := by
    obtain ⟨k, hk⟩ : ∃ k, (-b.offset).toNat = k + 1 := ⟨(-b.offset).toNat - 1, by omega⟩
    rw [putAll, hk, List.drop_succ_cons, List.drop_nil]
    rfl
  have hbody : putQuoted (putWhole · bytes) b.offset ⟨b, s.writes⟩ =
      .error .misfit (Journal.put b.offset [quote] ⟨b, s.writes⟩) := by
    rw [putQuoted, bind_apply_of_ok (put_apply b.offset quote _)]
    exact bind_apply_of_error (putWhole_apply_of_lt hoffset) _
  rw [verbatim, quoted, bind_apply_of_ok (room_of_some hroom)]
  refine (bind_apply_of_error hbody _).trans ?_
  rw [Journal.put, hlost]
  rfl

/-- **A literal is written as `writeLiteral` writes it**, with every byte noted. -/
theorem literal_eq (bytes : List UInt8) (s : Journal) :
    literal bytes s =
      match s.buffer.writeLiteral bytes with
      | .ok b =>
        .ok true ⟨b, s.writes ++ placed s.buffer.offset (quote :: escape bytes ++ [quote, 0])⟩
      | .error .noRoom => .ok false s
      | .error (.beforeStorage b) =>
        .error .misfit ⟨b, s.writes ++ [(s.buffer.offset, quote)]⟩ := by
  unfold literal writeLiteral
  cases hplain : bytes.any needsEscape with
  | true =>
    simp only [if_true, write?]
    cases hroom : s.buffer.reserve? (escapedLength bytes + 3 : Nat) with
    | none =>
      rw [escaped, counted_eq, quoted_of_none hroom]
      rfl
    | some b =>
      rw [escaped_of_some hroom, ← (capacity_of_reserve? hroom).1]
      simp [Journal.put]
  | false =>
    have hneeded : (bytes.length : Int) + 3 = (bytes.length + 3 : Nat) := rfl
    simp only [Bool.false_eq_true, if_false, hneeded, escape_of_plain hplain]
    cases hroom : s.buffer.reserve? (bytes.length + 3 : Nat) with
    | none => rw [verbatim, quoted_of_none hroom]
    | some b =>
      rw [← (capacity_of_reserve? hroom).1]
      by_cases hoffset : b.offset + 1 < 0
      · rw [verbatim_of_lt hroom hoffset]
        simp [hoffset]
      · rw [verbatim_of_some hroom (Int.not_lt.1 hoffset)]
        simp [hoffset, Journal.put]

end

end Writer

/-! ## What is written, and where -/

/-- The literal of a text is written at the offset `o` of the buffer `b`, which has the room for it
in `b'`. -/
structure LiteralWritten (bytes : List UInt8) (o : Nat) (b b' : Buffer) (s : Journal) : Prop where
  writes_eq : s.writes = placed o (quote :: escape bytes ++ [quote, 0])
  length_eq : s.writes.length = escapedLength bytes + 3
  inside : ∀ w ∈ s.writes, 0 ≤ w.1 ∧ w.1 < s.buffer.capacity
  stored : ∀ w ∈ s.writes, s.buffer.storage[w.1.toNat]? = some w.2
  kept_before : ∀ i < o, s.buffer.storage[i]? = b.storage[i]?
  kept_behind : ∀ i, o + (escapedLength bytes + 3) ≤ i → s.buffer.storage[i]? = b'.storage[i]?
  offset_eq : s.buffer.offset = b.offset

theorem length_terminated (bytes : List UInt8) :
    (quote :: escape bytes ++ [quote, 0]).length = escapedLength bytes + 3 := by
  simp [length_escape]

/-- Whether a literal is written is a question of room alone. -/
theorem writeLiteral_eq_reserve {o : Nat} (hoffset : b.offset = o) (bytes : List UInt8) :
    b.writeLiteral bytes =
      match b.reserve? (escapedLength bytes + 3 : Nat) with
      | none => .error .noRoom
      | some b' => .ok (b'.putAll o (quote :: escape bytes ++ [quote, 0])) := by
  have hlength : (quote :: escape bytes ++ [quote]).length + 1 = escapedLength bytes + 3 := by
    simp [length_escape]
  rw [writeLiteral_eq (by omega), hlength, write?]
  cases hroom : b.reserve? (escapedLength bytes + 3 : Nat) with
  | none => rfl
  | some b' =>
    rw [← hoffset, ← (capacity_of_reserve? hroom).1]
    simp

theorem literalWritten {b' : Buffer} {o : Nat} (hoffset : b.offset = o) (hinside : o ≤ b.capacity)
    (hroom : b.reserve? (escapedLength bytes + 3 : Nat) = some b') :
    LiteralWritten bytes o b b' (Journal.put o (quote :: escape bytes ++ [quote, 0]) ⟨b', []⟩) := by
  have hlength := length_terminated bytes
  have hroomy := roomy_of_reserve? hoffset hroom
  have hend : o + (escapedLength bytes + 3) ≤ b'.storage.size := hroomy.room
  have hwrites : (Journal.put o (quote :: escape bytes ++ [quote, 0]) ⟨b', []⟩).writes =
      placed o (quote :: escape bytes ++ [quote, 0]) := List.nil_append _
  have hstorage : (Journal.put o (quote :: escape bytes ++ [quote, 0]) ⟨b', []⟩).buffer.storage =
      overwrite b'.storage o (quote :: escape bytes ++ [quote, 0]) := by
    rw [Journal.put, putAll_natCast]
  have hplace {w : Int × UInt8} (hw : w ∈ placed o (quote :: escape bytes ++ [quote, 0])) :
      ∃ i < escapedLength bytes + 3, (quote :: escape bytes ++ [quote, 0])[i]? = some w.2 ∧
        w.1 = (o + i : Nat) := by
    obtain ⟨i, hi, hplace⟩ := exists_of_mem_placed hw
    exact ⟨i, hlength ▸ (List.getElem?_eq_some_iff.1 hi).1, hi, hplace⟩
  refine ⟨hwrites, ?_, fun w hw => ?_, fun w hw => ?_, fun i hi => ?_, fun i hi => ?_, ?_⟩
  · rw [hwrites, length_placed, hlength]
  · obtain ⟨i, hi, -, hplace⟩ := hplace (hwrites ▸ hw)
    rw [capacity, hstorage, size_overwrite, hplace]
    omega
  · obtain ⟨i, hi, hbyte, hplace⟩ := hplace (hwrites ▸ hw)
    rw [hstorage, hplace, Int.toNat_natCast, getElem?_overwrite, if_pos (by omega),
      Nat.add_sub_cancel_left, hbyte]
  · rw [hstorage, getElem?_overwrite_of_lt hi]
    exact hroomy.kept i (by omega) (by omega)
  · rw [hstorage, getElem?_overwrite, if_neg (by omega)]
  · exact hroomy.offset_eq

/-- A text without escapes has one literal, whichever way it is written. -/
theorem verbatim_eq_escaped {o : Nat} (hoffset : b.offset = o)
    (hplain : bytes.any needsEscape = false) :
    Writer.verbatim bytes ⟨b, []⟩ = Writer.escaped bytes ⟨b, []⟩ := by
  have hself := escape_of_plain hplain
  have hlength : escapedLength bytes = bytes.length := by rw [← length_escape, hself]
  cases hroom : b.reserve? (bytes.length + 3 : Nat) with
  | none =>
    rw [Writer.verbatim, Writer.quoted_of_none hroom, Writer.escaped, Writer.counted_eq, hlength,
      Writer.quoted_of_none hroom]
  | some b' =>
    have hoffset' : 0 ≤ b'.offset + 1 := by
      rw [(capacity_of_reserve? hroom).1]
      omega
    have hroom' := hroom
    rw [← hlength] at hroom'
    rw [Writer.verbatim_of_some hroom hoffset', Writer.escaped_of_some hroom', hself]

/-- **A literal takes the room that is counted for it**: it is written in full, from the offset on
and inside of the storage, or not at all if the room is refused. -/
theorem literal_exact (bytes : List UInt8) {o : Nat} (hoffset : b.offset = o)
    (hinside : o ≤ b.capacity) :
    (b.reserve? (escapedLength bytes + 3 : Nat) = none →
      Writer.literal bytes ⟨b, []⟩ = .ok false ⟨b, []⟩ ∧
        b.writeLiteral bytes = .error .noRoom) ∧
    (∀ b', b.reserve? (escapedLength bytes + 3 : Nat) = some b' →
      ∃ s, Writer.literal bytes ⟨b, []⟩ = .ok true s ∧ b.writeLiteral bytes = .ok s.buffer ∧
        LiteralWritten bytes o b b' s) ∧
    Body (escape bytes) ∧ (∀ c ∈ escape bytes, 0x20 ≤ c) ∧
    ((∀ c ∈ bytes, needsEscape c = false) →
      Writer.verbatim bytes ⟨b, []⟩ = Writer.escaped bytes ⟨b, []⟩) := by
  refine ⟨fun hroom => ?_, fun b' hroom => ?_, body_escape bytes, fun c hc => ?_, fun hplain => ?_⟩
  · have hwrite := writeLiteral_eq_reserve hoffset bytes
    rw [hroom] at hwrite
    exact ⟨by rw [Writer.literal_eq, hwrite], hwrite⟩
  · have hwrite := writeLiteral_eq_reserve hoffset bytes
    rw [hroom] at hwrite
    refine ⟨_, ?_, hwrite, literalWritten hoffset hinside hroom⟩
    rw [Writer.literal_eq, hwrite, hoffset]
    rfl
  · obtain ⟨b, -, hc⟩ := List.mem_flatMap.1 hc
    exact UInt8.le_iff_toNat_le.2 (mem_escapeByte hc).1
  · exact verbatim_eq_escaped hoffset (List.any_eq_false.2 fun c hc => by simp [hplain c hc])

/-- Behind one byte, a control character and a byte that is no character take ten bytes more. -/
theorem literal_exact_control_byte :
    let b (n : Nat) : Buffer := ⟨.replicate n 9, 1, false, .unlimited⟩
    (∃ s, Writer.literal [1, 0x80] ⟨b 12, []⟩ = .ok true s ∧ s.writes.length = 10 ∧
      s.buffer.storage[0]? = some 9 ∧ s.buffer.storage[11]? = some 9) ∧
      Writer.literal [1, 0x80] ⟨b 10, []⟩ = .ok false ⟨b 10, []⟩ := by
  intro b
  obtain ⟨-, hwritten, -⟩ := literal_exact (b := b 12) [1, 0x80] rfl (by decide)
  obtain ⟨hrefused, -⟩ := literal_exact (b := b 10) [1, 0x80] rfl (by decide)
  obtain ⟨s, hs, -, h⟩ := hwritten (b 12) (by rfl)
  exact ⟨⟨s, hs, h.length_eq, h.kept_before 0 (by decide), h.kept_behind 11 (by decide)⟩,
    (hrefused (by rfl)).1⟩

end LinkedJson.Buffer
