import LinkedJson.Text.Position
import Mathlib.Data.List.Count

/-!
# Positions are ordered like offsets

Going through the bytes before an offset, the line stays the same at each byte or the next one
begins behind it (`scanned_succ`). So every line begins behind the line feed that ends the line
before it, whichever offset asks (`scanned_eq`), and a position tells its offset: it is as far
behind the beginning of its line as its column says.
-/

namespace LinkedJson.Position

variable (bytes : List UInt8)

/-- Where a line begins that has `feeds` line feeds before it: at 0 if there are none, and one past
the last of them otherwise. -/
def lineBeginning : (feeds : Nat) → Nat
  | 0 => 0
  | feeds + 1 => bytes.idxOfNth Ascii.lineFeed feeds + 1

/-- The number of line feeds before an offset. -/
def feedsBefore (offset : Nat) : Nat :=
  (bytes.take offset).count Ascii.lineFeed

/-- The line of an offset and where it begins, as the bytes before the offset tell them. -/
def scanned (n : Nat) : Nat × Nat :=
  scanLines (bytes.take n) 0 1 0

/-- The offset of a place that is known by its line and its column. -/
def toOffset (line column : Int) : Int :=
  lineBeginning bytes (line - 1).toNat + column - 1

variable {bytes} {n m : Nat}

/-! ## One byte further -/

/-- Going through bytes and then through others is going through all of them. -/
theorem scanLines_append (front back : List UInt8) (i line lineStart : Nat) :
    scanLines (front ++ back) i line lineStart =
      scanLines back (i + front.length) (scanLines front i line lineStart).1
        (scanLines front i line lineStart).2 := by
  induction front generalizing i line lineStart with
  | nil => rfl
  | cons b front ih =>
    have hlength : i + 1 + front.length = i + (b :: front).length := by
      rw [List.length_cons]
      omega
    rw [List.cons_append, scanLines, scanLines]
    split <;> rw [ih, hlength]

theorem scanned_succ (bytes : List UInt8) (n : Nat) :
    scanned bytes (n + 1) =
      if bytes[n]? = some Ascii.lineFeed then ((scanned bytes n).1 + 1, n + 1)
      else scanned bytes n := by
  rw [scanned, List.take_add_one, scanLines_append]
  cases hbyte : bytes[n]? with
  | none => rfl
  | some b =>
    obtain ⟨hn, -⟩ := List.getElem?_eq_some_iff.1 hbyte
    have hlength : (bytes.take n).length = n := List.length_take_of_le (Nat.le_of_lt hn)
    by_cases hb : b = Ascii.lineFeed <;> simp [hb, hlength, scanLines, scanned]

theorem feedsBefore_succ (bytes : List UInt8) (n : Nat) :
    feedsBefore bytes (n + 1) =
      if bytes[n]? = some Ascii.lineFeed then feedsBefore bytes n + 1 else feedsBefore bytes n := by
  rw [feedsBefore, List.take_add_one, List.count_append]
  cases hbyte : bytes[n]? with
  | none => simp [feedsBefore]
  | some b => by_cases hb : b = Ascii.lineFeed <;> simp [hb, feedsBefore]

/-- Behind a line feed begins the line that has it and those before it in front of it. -/
theorem lineBeginning_succ (h : bytes[n]? = some Ascii.lineFeed) :
    lineBeginning bytes (feedsBefore bytes n + 1) = n + 1 := by
  obtain ⟨hn, hbyte⟩ := List.getElem?_eq_some_iff.1 h
  rw [lineBeginning, feedsBefore, ← List.countBefore_eq_count_take,
    List.idxOfNth_countBefore_of_lt_length_of_beq (beq_iff_eq.2 hbyte)]

/-! ## The beginning of a line -/

/-- **What the bytes before an offset tell** is the number of line feeds among them, and where the
line behind so many line feeds begins. -/
theorem scanned_eq (bytes : List UInt8) (n : Nat) :
    scanned bytes n = (feedsBefore bytes n + 1, lineBeginning bytes (feedsBefore bytes n)) := by
  induction n with
  | zero => rfl
  | succ n ih =>
    rw [scanned_succ, feedsBefore_succ, ih]
    by_cases h : bytes[n]? = some Ascii.lineFeed
    · rw [if_pos h, if_pos h, lineBeginning_succ h]
    · rw [if_neg h, if_neg h]

/-- A line begins at or before each of its offsets. -/
theorem lineBeginning_le (bytes : List UInt8) (n : Nat) :
    lineBeginning bytes (feedsBefore bytes n) ≤ n := by
  induction n with
  | zero => exact Nat.le_refl 0
  | succ n ih =>
    rw [feedsBefore_succ]
    by_cases h : bytes[n]? = some Ascii.lineFeed
    · rw [if_pos h]
      exact Nat.le_of_eq (lineBeginning_succ h)
    · rw [if_neg h]
      exact Nat.le_succ_of_le ih

theorem feedsBefore_mono (h : n ≤ m) : feedsBefore bytes n ≤ feedsBefore bytes m :=
  (List.take_sublist_take_left h).count_le _

/-! ## Positions -/

theorem ofOffset_eq (bytes : List UInt8) (a : Int) :
    ofOffset bytes a =
      ⟨feedsBefore bytes a.toNat + 1, a - lineBeginning bytes (feedsBefore bytes a.toNat) + 1, a⟩ := by
  have h : scanLines (bytes.take a.toNat) 0 1 0 = _ := scanned_eq bytes a.toNat
  rw [ofOffset, h]
  rfl

theorem line_ofOffset (bytes : List UInt8) (a : Int) :
    (ofOffset bytes a).line - 1 = feedsBefore bytes a.toNat := by
  rw [ofOffset_eq, Int.add_sub_cancel]

theorem column_ofOffset (bytes : List UInt8) (a : Int) :
    (ofOffset bytes a).column = a - lineBeginning bytes (feedsBefore bytes a.toNat) + 1 := by
  rw [ofOffset_eq]

theorem one_le_column {a : Int} (h : 0 ≤ a) : 1 ≤ (ofOffset bytes a).column := by
  have := lineBeginning_le bytes a.toNat
  rw [column_ofOffset]
  omega

theorem toOffset_ofOffset (bytes : List UInt8) (a : Int) :
    toOffset bytes (ofOffset bytes a).line (ofOffset bytes a).column = a := by
  rw [toOffset, line_ofOffset, Int.toNat_natCast, column_ofOffset]
  omega

/-- The line counts first, and on one line the column. -/
theorem ofOffset_lt {a b : Int} (h : a < b) :
    (ofOffset bytes a).line < (ofOffset bytes b).line ∨
      (ofOffset bytes a).line = (ofOffset bytes b).line ∧
        (ofOffset bytes a).column < (ofOffset bytes b).column := by
  have hle : feedsBefore bytes a.toNat ≤ feedsBefore bytes b.toNat := feedsBefore_mono (by omega)
  have hline (c : Int) : (ofOffset bytes c).line = feedsBefore bytes c.toNat + 1 := by
    rw [ofOffset_eq]
  rw [hline, hline]
  rcases Nat.lt_or_eq_of_le hle with hlt | heq
  · exact .inl (by omega)
  · refine .inr ⟨by rw [heq], ?_⟩
    rw [column_ofOffset, column_ofOffset, heq]
    omega

/-- **Positions are ordered like offsets and can be read back.** A smaller offset has a smaller
position, by its line and then by its column, so no two offsets have one position. The line is one
more than the line feeds before the offset, or before the end if the offset lies beyond it, the
column of no offset from 0 on is below 1, and the offset is as far behind the beginning of the line
as the column says. -/
theorem ofOffset_ordered (bytes : List UInt8) :
    (∀ a b, a < b → Prod.Lex (· < ·) (· < ·)
      ((ofOffset bytes a).line, (ofOffset bytes a).column)
      ((ofOffset bytes b).line, (ofOffset bytes b).column)) ∧
    (∀ a b, (ofOffset bytes a).line = (ofOffset bytes b).line →
      (ofOffset bytes a).column = (ofOffset bytes b).column → a = b) ∧
    ∀ a, (ofOffset bytes a).line - 1 =
        (bytes.take (min a.toNat bytes.length)).count Ascii.lineFeed ∧
      (0 ≤ a → 1 ≤ (ofOffset bytes a).column) ∧
      a = lineBeginning bytes ((ofOffset bytes a).line - 1).toNat +
        (ofOffset bytes a).column - 1 := by
  refine ⟨fun a b h => Prod.lex_def.2 (ofOffset_lt h), fun a b hline hcolumn => ?_,
    fun a => ⟨?_, one_le_column, (toOffset_ofOffset bytes a).symm⟩⟩
  · rw [← toOffset_ofOffset bytes a, hline, hcolumn, toOffset_ofOffset]
  · rw [line_ofOffset, feedsBefore, ← List.take_eq_take_min]

/-- The line feed at offset 2 ends line 1, so offsets 2 and 3 are on two lines, and offset 9, which
lies beyond the end, is on line 3. -/
theorem ofOffset_ordered_three_lines :
    (ofOffset [97, 98, 10, 10, 99] 2, ofOffset [97, 98, 10, 10, 99] 3,
        ofOffset [97, 98, 10, 10, 99] 9) =
      (⟨1, 3, 2⟩, ⟨2, 1, 3⟩, ⟨3, 6, 9⟩) ∧
    Prod.Lex (· < ·) (· < ·) ((1 : Int), (3 : Int)) (2, 1) ∧
    1 ≤ (ofOffset [97, 98, 10, 10, 99] 9).column ∧
    (9 : Int) = lineBeginning [97, 98, 10, 10, 99] 2 + 6 - 1 := by
  obtain ⟨hordered, -, hplace⟩ := ofOffset_ordered [97, 98, 10, 10, 99]
  obtain ⟨-, hcolumn, hoffset⟩ := hplace 9
  exact ⟨by decide, hordered 2 3 (by decide), hcolumn (by decide), hoffset⟩

end LinkedJson.Position
