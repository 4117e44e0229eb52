import LinkedJson.Number.Literal

/-!
# The parts of a number literal

`Parts` is a number literal taken apart: a sign, whole digits, a fraction and an exponent, each with
what makes it well-formed. A reading is a division of the text into such parts and a rest
(`exists_parts_of_scan?`), and the parts are found again wherever the rest cannot prolong them
(`scan?_bytes_append`).
-/

namespace LinkedJson.NumberLiteral

open Ascii

/-- What may stand behind a number: no digit, no point and no mark of an exponent. -/
def Stops (rest : List UInt8) : Prop :=
  ∀ b ∈ rest.head?, isDigit b = false ∧ b ≠ point ∧ b ≠ 0x65 ∧ b ≠ 0x45

theorem stops_nil : Stops [] :=
  fun _ h => nomatch h

/-- The sign of an exponent. -/
inductive ExponentSign where
  | none
  | plus
  | minus

def ExponentSign.bytes : ExponentSign → List UInt8
  | none => []
  | plus => [Ascii.plus]
  | minus => [Ascii.minus]

/-- A mark, a sign and digits. -/
structure ExponentPart where
  mark : UInt8
  sign : ExponentSign
  digits : List UInt8
  mark_eq : mark = 0x65 ∨ mark = 0x45
  isDigit : ∀ b ∈ digits, isDigit b = true
  ne_nil : digits ≠ []

namespace ExponentPart

def bytes (e : ExponentPart) : List UInt8 :=
  e.mark :: (e.sign.bytes ++ e.digits)

def value (e : ExponentPart) : Int :=
  match e.sign with
  | .minus => -(digitsValue e.digits : Int)
  | _ => digitsValue e.digits

end ExponentPart

def signBytes (negative : Bool) : List UInt8 :=
  if negative then [minus] else []

def fractionBytes : Option (List UInt8) → List UInt8
  | none => []
  | some digits => point :: digits

def exponentBytes : Option ExponentPart → List UInt8
  | none => []
  | some e => e.bytes

/-- A number literal in parts; there is a digit before the exponent. -/
structure Parts where
  negative : Bool
  whole : List UInt8
  fraction : Option (List UInt8)
  exponent : Option ExponentPart
  whole_isDigit : ∀ b ∈ whole, isDigit b = true
  fraction_isDigit : ∀ b ∈ fraction.getD [], isDigit b = true
  ne_nil : ¬ (whole = [] ∧ fraction.getD [] = [])

namespace Parts

/-- The literal. -/
def bytes (p : Parts) : List UInt8 :=
  signBytes p.negative ++ (p.whole ++ (fractionBytes p.fraction ++ exponentBytes p.exponent))

/-- The decimal that the literal writes. -/
def decimal (p : Parts) : Decimal :=
  ⟨p.negative, digitsValue (p.whole ++ p.fraction.getD []),
    (p.exponent.map ExponentPart.value).getD 0 - (p.fraction.getD []).length⟩

end Parts

/-! ## Taking digits -/

theorem isDigit_of_mem_takeDigits (text : List UInt8) :
    ∀ b ∈ (takeDigits text).1, isDigit b = true :=
  List.all_eq_true.1 List.all_takeWhile

theorem takeDigits_append_eq (text : List UInt8) :
    (takeDigits text).1 ++ (takeDigits text).2 = text :=
  List.takeWhile_append_dropWhile ..

/-- Digits are taken as far as they reach. -/
theorem takeDigits_append {digits rest : List UInt8} (hd : ∀ b ∈ digits, isDigit b = true)
    (hr : ∀ b ∈ rest.head?, isDigit b = false) : takeDigits (digits ++ rest) = (digits, rest) := by
  have hnil : rest.takeWhile isDigit = [] ∧ rest.dropWhile isDigit = rest := by
    cases rest with
    | nil => exact ⟨rfl, rfl⟩
    | cons b rest =>
      have hb := hr b rfl
      simp [hb]
  rw [takeDigits, List.takeWhile_append_of_pos hd, List.dropWhile_append_of_pos hd, hnil.1, hnil.2,
    List.append_nil]

/-- A digit is no sign, no point and no mark. -/
theorem ne_of_isDigit {b : UInt8} (h : isDigit b = true) :
    b ≠ minus ∧ b ≠ plus ∧ b ≠ point ∧ b ≠ 0x65 ∧ b ≠ 0x45 := by
  refine ⟨?_, ?_, ?_, ?_, ?_⟩ <;> rintro rfl <;> exact absurd h (by decide)

/-! ## A reading as parts -/

theorem takeMinus_eq (text : List UInt8) :
    text = signBytes (takeMinus text).1 ++ (takeMinus text).2 := by
  cases text with
  | nil => rfl
  | cons b text =>
    by_cases hb : b = minus
    · simp [takeMinus, hb, signBytes]
    · simp [takeMinus, hb, signBytes]

/-- A fraction is a point and digits, or nothing. -/
theorem takeFraction_eq (text : List UInt8) :
    ∃ fraction : Option (List UInt8), (takeFraction text).1 = fraction.getD [] ∧
      (∀ b ∈ fraction.getD [], isDigit b = true) ∧
        text = fractionBytes fraction ++ (takeFraction text).2 := by
  cases text with
  | nil => exact ⟨none, rfl, by simp, rfl⟩
  | cons b text =>
    by_cases hb : b = point
    · refine ⟨some (takeDigits text).1, by simp [takeFraction, hb], ?_, ?_⟩
      · exact isDigit_of_mem_takeDigits _
      · simp only [takeFraction, hb, if_true, fractionBytes, List.cons_append, takeDigits_append_eq]
    · exact ⟨none, by simp [takeFraction, hb], by simp, by simp [takeFraction, hb, fractionBytes]⟩

theorem takeSign_eq (text : List UInt8) :
    ∃ sign : ExponentSign, text = sign.bytes ++ (takeSign text).2 ∧
      ∀ n : Nat, (if (takeSign text).1 then -(n : Int) else n) =
        match sign with | .minus => -(n : Int) | _ => n := by
  cases text with
  | nil => exact ⟨.none, rfl, fun _ => rfl⟩
  | cons b text =>
    by_cases hp : b = plus
    · exact ⟨.plus, by simp [takeSign, hp, ExponentSign.bytes], fun _ => by simp [takeSign, hp]⟩
    · by_cases hm : b = minus
      · subst hm
        exact ⟨.minus, rfl, fun _ => rfl⟩
      · exact ⟨.none, by simp [takeSign, takeMinus, hp, hm, ExponentSign.bytes],
          fun _ => by simp [takeSign, takeMinus, hp, hm]⟩

/-- An exponent is a mark, a sign and digits, or nothing. -/
theorem takeExponent_eq (text : List UInt8) :
    ∃ exponent : Option ExponentPart,
      (takeExponent text).1 = (exponent.map ExponentPart.value).getD 0 ∧
        text = exponentBytes exponent ++ (takeExponent text).2 := by
  cases text with
  | nil => exact ⟨none, rfl, rfl⟩
  | cons b text =>
    by_cases hb : b = 0x65 ∨ b = 0x45
    · obtain ⟨sign, htext, hsign⟩ := takeSign_eq text
      by_cases hd : (takeDigits (takeSign text).2).1 = []
      · exact ⟨none, by simp [takeExponent, hb, hd], by simp [takeExponent, hb, hd, exponentBytes]⟩
      · refine ⟨some ⟨b, sign, (takeDigits (takeSign text).2).1, hb, isDigit_of_mem_takeDigits _, hd⟩,
          ?_, ?_⟩
        · simp only [takeExponent, hb, if_true, List.isEmpty_iff, hd, if_false, hsign]
          rfl
        · simp only [takeExponent, hb, if_true, List.isEmpty_iff, hd, if_false, exponentBytes,
            ExponentPart.bytes, List.cons_append, List.append_assoc, takeDigits_append_eq]
          rw [← htext]
    · exact ⟨none, by simp [takeExponent, hb], by simp [takeExponent, hb, exponentBytes]⟩

/-- What is read at the front of a text is a literal in parts. -/
theorem exists_parts_of_scan? {text rest : List UInt8} {d : Decimal}
    (h : scan? text = some (d, rest)) : ∃ p : Parts, text = p.bytes ++ rest ∧ d = p.decimal := by
  simp only [scan?] at h
  split at h
  · cases h
  · rename_i hne
    cases h
    have hminus := takeMinus_eq text
    generalize takeMinus text = m at hne hminus ⊢
    have hwhole := takeDigits_append_eq m.2
    have hwholeDigits := isDigit_of_mem_takeDigits m.2
    generalize takeDigits m.2 = w at hne hwhole hwholeDigits ⊢
    obtain ⟨fraction, hf, hfractionDigits, hfraction⟩ := takeFraction_eq w.2
    generalize takeFraction w.2 = f at hne hf hfraction ⊢
    obtain ⟨exponent, he, hexponent⟩ := takeExponent_eq f.2
    refine ⟨⟨m.1, w.1, fraction, exponent, hwholeDigits, hfractionDigits, ?_⟩, ?_, ?_⟩
    · simpa [hf] using hne
    · calc text = signBytes m.1 ++ (w.1 ++ (fractionBytes fraction ++ f.2)) := by
            rw [hminus, ← hwhole, hfraction]
        _ = _ := by
            simp only [Parts.bytes, List.append_assoc]
            rw [← hexponent]
    · simp only [Parts.decimal, hf, he]

/-! ## Parts are read again -/

/-- Nothing before a text without a minus is a sign. -/
theorem takeMinus_append {text : List UInt8} (h : text.head? ≠ some minus) (negative : Bool) :
    takeMinus (signBytes negative ++ text) = (negative, text) := by
  cases negative with
  | true => rfl
  | false =>
    cases text with
    | nil => rfl
    | cons b text =>
      have hb : b ≠ minus := fun e => h (congrArg some e)
      simp [signBytes, takeMinus, hb]

theorem takeFraction_append {fraction : Option (List UInt8)} {rest : List UInt8}
    (hd : ∀ b ∈ fraction.getD [], isDigit b = true)
    (hr : ∀ b ∈ rest.head?, isDigit b = false ∧ b ≠ point) :
    takeFraction (fractionBytes fraction ++ rest) = (fraction.getD [], rest) := by
  cases fraction with
  | some digits =>
    show takeDigits (digits ++ rest) = _
    exact takeDigits_append hd fun b hb => (hr b hb).1
  | none =>
    cases rest with
    | nil => rfl
    | cons b rest =>
      have hb := (hr b rfl).2
      simp [fractionBytes, takeFraction, hb]

theorem takeSign_append {text : List UInt8}
    (h : ∀ b ∈ text.head?, b ≠ plus ∧ b ≠ minus) (sign : ExponentSign) :
    (takeSign (sign.bytes ++ text)).2 = text ∧
      ∀ n : Nat, (if (takeSign (sign.bytes ++ text)).1 then -(n : Int) else n) =
        match sign with | .minus => -(n : Int) | _ => n := by
  cases sign with
  | plus => exact ⟨rfl, fun _ => rfl⟩
  | minus => exact ⟨rfl, fun _ => rfl⟩
  | none =>
    cases text with
    | nil => exact ⟨rfl, fun _ => rfl⟩
    | cons b text =>
      obtain ⟨hp, hm⟩ := h b rfl
      simp [ExponentSign.bytes, takeSign, takeMinus, hp, hm]

/-- Behind the sign of an exponent there is no other sign. -/
theorem ExponentPart.head?_digits_ne (e : ExponentPart) (rest : List UInt8) :
    ∀ b ∈ (e.digits ++ rest).head?, b ≠ plus ∧ b ≠ minus := by
  intro b hb
  obtain ⟨d, digits, hd⟩ := List.exists_cons_of_ne_nil e.ne_nil
  rw [hd] at hb
  cases hb
  have := ne_of_isDigit (e.isDigit b (by simp [hd]))
  exact ⟨this.2.1, this.1⟩

theorem takeExponent_append {rest : List UInt8} (h : Stops rest)
    (exponent : Option ExponentPart) :
    takeExponent (exponentBytes exponent ++ rest) =
      ((exponent.map ExponentPart.value).getD 0, rest) := by
  cases exponent with
  | none =>
    cases rest with
    | nil => rfl
    | cons b rest =>
      obtain ⟨-, -, he, hE⟩ := h b rfl
      simp [exponentBytes, takeExponent, he, hE]
  | some e =>
    obtain ⟨hrest, hsign⟩ := takeSign_append (e.head?_digits_ne rest) e.sign
    have hdigits := takeDigits_append e.isDigit fun b hb => (h b hb).1
    simp only [exponentBytes, ExponentPart.bytes, List.cons_append, List.append_assoc, takeExponent,
      e.mark_eq, if_true, hrest, hdigits, List.isEmpty_iff, e.ne_nil, if_false, hsign,
      Option.map_some, Option.getD_some]
    rfl

/-- The head of a text that begins with a run of digits, if there are any. -/
theorem head?_append_cases {digits rest : List UInt8} {b : UInt8}
    (h : b ∈ (digits ++ rest).head?) : b ∈ digits ∨ b ∈ rest.head? := by
  cases digits with
  | nil => exact .inr h
  | cons d digits =>
    cases h
    exact .inl (List.mem_cons_self ..)

/-- What may stand behind the digits of a number: the exponent, or what is behind the number. -/
theorem head?_exponentBytes_append {exponent : Option ExponentPart} {rest : List UInt8} :
    ∀ b ∈ (exponentBytes exponent ++ rest).head?,
      isDigit b = false ∧ b ≠ point ∨ b ∈ rest.head? := by
  intro b hb
  cases exponent with
  | none => exact .inr hb
  | some e =>
    cases hb
    left
    rcases e.mark_eq with he | he <;> rw [he] <;> decide

/-- Behind the sign a literal begins with no minus. -/
theorem Parts.head?_unsigned_ne (p : Parts) (rest : List UInt8) :
    (p.whole ++ (fractionBytes p.fraction ++ (exponentBytes p.exponent ++ rest))).head? ≠
      some minus := by
  intro hm
  rcases head?_append_cases hm with hb | hb
  · exact absurd rfl (ne_of_isDigit (p.whole_isDigit _ hb)).1
  · cases hf : p.fraction with
    | some digits =>
      rw [hf] at hb
      cases hb
    | none =>
      -- without whole digits there is a fraction, so this minus follows a digit
      have := p.ne_nil
      rw [hf] at hb this
      cases hw : p.whole with
      | nil => simp [hw] at this
      | cons d whole =>
        rw [hw] at hm
        cases hm
        exact absurd rfl (ne_of_isDigit (p.whole_isDigit _ (by simp [hw]))).1

/-- **The parts of a literal are read again**, wherever the rest cannot prolong them. -/
theorem scan?_bytes_append (p : Parts) {rest : List UInt8} (h : Stops rest) :
    scan? (p.bytes ++ rest) = some (p.decimal, rest) := by
  have hexponent : ∀ b ∈ (exponentBytes p.exponent ++ rest).head?,
      isDigit b = false ∧ b ≠ point := by
    intro b hb
    rcases head?_exponentBytes_append b hb with hb | hb
    · exact hb
    · exact ⟨(h b hb).1, (h b hb).2.1⟩
  have hfraction : ∀ b ∈ (fractionBytes p.fraction ++ (exponentBytes p.exponent ++ rest)).head?,
      isDigit b = false := by
    intro b hb
    cases hf : p.fraction with
    | none =>
      rw [hf] at hb
      exact (hexponent b hb).1
    | some digits =>
      rw [hf] at hb
      cases hb
      decide
  simp only [scan?, Parts.bytes, List.append_assoc, takeMinus_append (p.head?_unsigned_ne rest),
    takeDigits_append p.whole_isDigit hfraction, takeFraction_append p.fraction_isDigit hexponent,
    takeExponent_append h]
  rw [if_neg (by simpa [List.isEmpty_iff] using p.ne_nil)]
  rfl

/-! ## Whole literals -/

theorem read_bytes_append (p : Parts) {rest : List UInt8} (h : Stops rest) :
    read (p.bytes ++ rest) = .ok (p.decimal.toDouble, rest) := by
  rw [read, scan?_bytes_append p h]

theorem exists_parts_of_read {text rest : List UInt8} {d : Double}
    (h : read text = .ok (d, rest)) :
    ∃ p : Parts, text = p.bytes ++ rest ∧ d = p.decimal.toDouble := by
  unfold read at h
  split at h
  · cases h
  · rename_i hscan
    cases h
    obtain ⟨p, htext, rfl⟩ := exists_parts_of_scan? hscan
    exact ⟨p, htext, rfl⟩

/-- Behind a whole literal may stand whatever does not prolong it. -/
theorem read_append {literal rest : List UInt8} {d : Double} (h : read literal = .ok (d, []))
    (hr : Stops rest) : read (literal ++ rest) = .ok (d, rest) := by
  obtain ⟨p, rfl, rfl⟩ := exists_parts_of_read h
  rw [List.append_nil]
  exact read_bytes_append p hr

/-- What is read at the front of a text is a whole literal. -/
theorem eq_append_of_read {text rest : List UInt8} {d : Double} (h : read text = .ok (d, rest)) :
    ∃ literal, text = literal ++ rest ∧ read literal = .ok (d, []) := by
  obtain ⟨p, rfl, rfl⟩ := exists_parts_of_read h
  have hp := read_bytes_append p stops_nil
  rw [List.append_nil] at hp
  exact ⟨p.bytes, rfl, hp⟩

end LinkedJson.NumberLiteral
