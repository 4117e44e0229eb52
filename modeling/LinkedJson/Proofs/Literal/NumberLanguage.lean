import LinkedJson.Proofs.Grammar.Meaning
import LinkedJson.Proofs.Literal.NumberText
import LinkedJson.Proofs.Literal.StringLanguage
import Mathlib.Computability.RegularExpressions

/-!
# The language of number literals

Number literals are the texts that match `pattern`, a regular expression: `Parts` are its matches
taken apart (`mem_pattern_iff`). `Outcome` says by the bytes alone what comes of reading a number at
an offset: the longest literal there and the double nearest to what it denotes, or a fault at that
offset where no literal begins.

The reader takes whatever prolongs what it has taken so far. So it leaves no more unread than is
behind any literal that the text begins with (`exists_scan?_append`), and what it takes is the
longest one (`readAt_iff_longest`).
-/

namespace LinkedJson.NumberLiteral

open Ascii
open StringLiteral (coded)

/-! ## The regular expression -/

/-- One of some bytes. -/
def oneOf (bytes : List UInt8) : RegularExpression UInt8 :=
  (bytes.map .char).sum

def optional (r : RegularExpression UInt8) : RegularExpression UInt8 :=
  1 + r

/-- A digit. -/
def digit : RegularExpression UInt8 :=
  oneOf [0x30, 0x31, 0x32, 0x33, 0x34, 0x35, 0x36, 0x37, 0x38, 0x39]

/-- One digit or more. -/
def digitRun : RegularExpression UInt8 :=
  digit * digit.star

/-- Digits with or without a point behind them or among them, or a point with digits behind it. -/
def mantissa : RegularExpression UInt8 :=
  digitRun * optional (.char point * digit.star) + .char point * digitRun

/-- A mark, perhaps a sign, and digits. -/
def scale : RegularExpression UInt8 :=
  oneOf [0x65, 0x45] * (optional (oneOf [plus, minus]) * digitRun)

/-- `-?(D+(.D*)?|.D+)([eE][+-]?D+)?`, where `D` is a digit. -/
def pattern : RegularExpression UInt8 :=
  optional (.char minus) * (mantissa * optional scale)

/-- A text begins with a literal, and with none that is longer. -/
structure Longest (text literal : List UInt8) : Prop where
  mem : literal ∈ pattern.matches'
  isPrefix : literal <+: text
  length_le : ∀ other ∈ pattern.matches', other <+: text → other.length ≤ literal.length

/-- What comes of reading a number at an offset: the double and the offset behind the literal, or
the code of the fault and its place. -/
inductive Outcome (bytes : List UInt8) (start : Int) :
    Except (FaultCode × Int) (Double × Int) → Prop
  /-- The longest literal, rounded to the nearest double. -/
  | number {p : Parts} {d : Double} (htext : Longest (textFrom bytes start) p.bytes)
    (hd : Double.Rounds p.negative p.magnitude d) :
    Outcome bytes start (.ok (d, start + p.bytes.length))
  /-- No literal begins here. -/
  | missing (h : ∀ literal ∈ pattern.matches', ¬ literal <+: textFrom bytes start) :
    Outcome bytes start (.error (.malformedNumber, start))

/-! ## Matches are literals in parts -/

section Matches

variable {text : List UInt8}

theorem mem_oneOf_iff {bytes : List UInt8} :
    text ∈ (oneOf bytes).matches' ↔ ∃ b ∈ bytes, text = [b] := by
  induction bytes with
  | nil =>
    rw [oneOf, List.map_nil, List.sum_nil, RegularExpression.matches'_zero]
    simp
  | cons b bytes ih =>
    rw [oneOf, List.map_cons, List.sum_cons, RegularExpression.matches'_add, Language.mem_add,
      RegularExpression.matches'_char, List.exists_mem_cons_iff]
    exact or_congr_right ih

theorem mem_optional_iff {r : RegularExpression UInt8} :
    text ∈ (optional r).matches' ↔ text = [] ∨ text ∈ r.matches' := by
  rw [optional, RegularExpression.matches'_add, Language.mem_add,
    RegularExpression.matches'_epsilon, Language.mem_one]

theorem mem_mul_iff {r s : RegularExpression UInt8} :
    text ∈ (r * s).matches' ↔ ∃ a ∈ r.matches', ∃ b ∈ s.matches', a ++ b = text := by
  rw [RegularExpression.matches'_mul, Language.mem_mul]

theorem mem_char_iff {b : UInt8} :
    text ∈ (RegularExpression.char b).matches' ↔ text = [b] :=
  Iff.rfl

theorem mem_digit_iff : text ∈ digit.matches' ↔ ∃ b, isDigit b = true ∧ text = [b] := by
  rw [digit, mem_oneOf_iff]
  refine exists_congr fun b => and_congr_left' ?_
  simp only [isDigit_iff, List.mem_cons, List.not_mem_nil, or_false, ← UInt8.toNat_inj,
    UInt8.reduceToNat]
  omega

theorem mem_digits_iff : text ∈ digit.star.matches' ↔ ∀ b ∈ text, isDigit b = true := by
  rw [RegularExpression.matches'_star, Language.mem_kstar]
  constructor
  · rintro ⟨pieces, rfl, hpieces⟩ b hb
    obtain ⟨piece, hpiece, hb⟩ := List.mem_flatten.1 hb
    obtain ⟨c, hc, rfl⟩ := mem_digit_iff.1 (hpieces piece hpiece)
    rwa [List.mem_singleton.1 hb]
  · intro h
    refine ⟨text.map fun b => [b], (List.flatMap_singleton' text).symm, ?_⟩
    intro piece hpiece
    obtain ⟨b, hb, rfl⟩ := List.mem_map.1 hpiece
    exact mem_digit_iff.2 ⟨b, h b hb, rfl⟩

theorem mem_digitRun_iff :
    text ∈ digitRun.matches' ↔ text ≠ [] ∧ ∀ b ∈ text, isDigit b = true := by
  rw [digitRun, mem_mul_iff]
  constructor
  · rintro ⟨first, hfirst, rest, hrest, rfl⟩
    obtain ⟨b, hb, rfl⟩ := mem_digit_iff.1 hfirst
    exact ⟨List.cons_ne_nil _ _, List.forall_mem_cons.2 ⟨hb, mem_digits_iff.1 hrest⟩⟩
  · rintro ⟨hne, h⟩
    obtain ⟨b, rest, rfl⟩ := List.exists_cons_of_ne_nil hne
    obtain ⟨hb, hrest⟩ := List.forall_mem_cons.1 h
    exact ⟨[b], mem_digit_iff.2 ⟨b, hb, rfl⟩, rest, mem_digits_iff.2 hrest, rfl⟩

theorem mem_sign_iff :
    text ∈ (optional (.char minus)).matches' ↔ ∃ negative, text = signBytes negative := by
  rw [mem_optional_iff, mem_char_iff, Bool.exists_bool]
  rfl

theorem mem_mantissa_iff : text ∈ mantissa.matches' ↔
    ∃ (whole : List UInt8) (fraction : Option (List UInt8)), (∀ b ∈ whole, isDigit b = true) ∧
      (∀ b ∈ fraction.getD [], isDigit b = true) ∧ ¬ (whole = [] ∧ fraction.getD [] = []) ∧
        text = whole ++ fractionBytes fraction := by
  rw [mantissa, RegularExpression.matches'_add, Language.mem_add, mem_mul_iff, mem_mul_iff]
  constructor
  · rintro (⟨whole, hwhole, fraction, hfraction, rfl⟩ | ⟨_, hpoint, digits, hdigits, rfl⟩)
    · obtain ⟨hne, hwhole⟩ := mem_digitRun_iff.1 hwhole
      rcases mem_optional_iff.1 hfraction with rfl | hfraction
      · exact ⟨whole, none, hwhole, List.forall_mem_nil _, fun h => hne h.1, rfl⟩
      · obtain ⟨_, hpoint, digits, hdigits, rfl⟩ := mem_mul_iff.1 hfraction
        rw [mem_char_iff.1 hpoint]
        exact ⟨whole, some digits, hwhole, mem_digits_iff.1 hdigits, fun h => hne h.1, rfl⟩
    · obtain ⟨hne, hdigits⟩ := mem_digitRun_iff.1 hdigits
      rw [mem_char_iff.1 hpoint]
      exact ⟨[], some digits, List.forall_mem_nil _, hdigits, fun h => hne h.2, rfl⟩
  · rintro ⟨whole, fraction, hwhole, hfraction, hne, rfl⟩
    by_cases hempty : whole = []
    · cases fraction with
      | none => exact absurd ⟨hempty, rfl⟩ hne
      | some digits =>
        right
        rw [hempty]
        exact ⟨[point], rfl, digits, mem_digitRun_iff.2 ⟨fun h => hne ⟨hempty, h⟩, hfraction⟩, rfl⟩
    · left
      refine ⟨whole, mem_digitRun_iff.2 ⟨hempty, hwhole⟩, fractionBytes fraction, ?_, rfl⟩
      rw [mem_optional_iff]
      cases fraction with
      | none => exact .inl rfl
      | some digits =>
        exact .inr (mem_mul_iff.2 ⟨[point], rfl, digits, mem_digits_iff.2 hfraction, rfl⟩)

theorem mem_scale_iff : text ∈ scale.matches' ↔ ∃ e : ExponentPart, text = e.bytes := by
  rw [scale, mem_mul_iff]
  constructor
  · rintro ⟨_, hmark, _, hrest, rfl⟩
    obtain ⟨mark, hmem, rfl⟩ := mem_oneOf_iff.1 hmark
    obtain ⟨sign, hsign, digits, hdigits, rfl⟩ := mem_mul_iff.1 hrest
    obtain ⟨hne, hdigits⟩ := mem_digitRun_iff.1 hdigits
    have hmark_eq : mark = 0x65 ∨ mark = 0x45 := by simpa using hmem
    obtain ⟨s, rfl⟩ : ∃ s : ExponentSign, sign = s.bytes := by
      rcases mem_optional_iff.1 hsign with rfl | hsign
      · exact ⟨.none, rfl⟩
      · obtain ⟨b, hb, rfl⟩ := mem_oneOf_iff.1 hsign
        have hb_eq : b = plus ∨ b = minus := by simpa using hb
        rcases hb_eq with rfl | rfl
        · exact ⟨.plus, rfl⟩
        · exact ⟨.minus, rfl⟩
    exact ⟨⟨mark, s, digits, hmark_eq, hdigits, hne⟩, rfl⟩
  · rintro ⟨e, rfl⟩
    refine ⟨[e.mark], mem_oneOf_iff.2 ⟨e.mark, by simp [e.mark_eq], rfl⟩, e.sign.bytes ++ e.digits,
      mem_mul_iff.2 ⟨e.sign.bytes, ?_, e.digits, mem_digitRun_iff.2 ⟨e.ne_nil, e.isDigit⟩, rfl⟩, rfl⟩
    rw [mem_optional_iff, mem_oneOf_iff]
    cases e.sign with
    | none => exact .inl rfl
    | plus => exact .inr ⟨plus, by simp, rfl⟩
    | minus => exact .inr ⟨minus, by simp, rfl⟩

/-- The matches of the pattern are the literals in parts. -/
theorem mem_pattern_iff : text ∈ pattern.matches' ↔ ∃ p : Parts, text = p.bytes := by
  rw [pattern, mem_mul_iff]
  constructor
  · rintro ⟨_, hsign, _, hrest, rfl⟩
    obtain ⟨negative, rfl⟩ := mem_sign_iff.1 hsign
    obtain ⟨_, hmantissa, _, hscale, rfl⟩ := mem_mul_iff.1 hrest
    obtain ⟨whole, fraction, hwhole, hfraction, hne, rfl⟩ := mem_mantissa_iff.1 hmantissa
    obtain ⟨exponent, rfl⟩ : ∃ exponent : Option ExponentPart, _ = exponentBytes exponent := by
      rcases mem_optional_iff.1 hscale with h | h
      · exact ⟨none, h⟩
      · obtain ⟨e, he⟩ := mem_scale_iff.1 h
        exact ⟨some e, he⟩
    refine ⟨⟨negative, whole, fraction, exponent, hwhole, hfraction, hne⟩, ?_⟩
    simp only [Parts.bytes, List.append_assoc]
  · rintro ⟨p, rfl⟩
    refine ⟨_, mem_sign_iff.2 ⟨p.negative, rfl⟩, _, mem_mul_iff.2 ⟨_, mem_mantissa_iff.2
      ⟨p.whole, p.fraction, p.whole_isDigit, p.fraction_isDigit, p.ne_nil, rfl⟩,
      exponentBytes p.exponent, ?_, rfl⟩, ?_⟩
    · rw [mem_optional_iff]
      cases p.exponent with
      | none => exact .inl rfl
      | some e => exact .inr (mem_scale_iff.2 ⟨e, rfl⟩)
    · simp only [Parts.bytes, List.append_assoc]

example : pattern.rmatch (Utf8.encode "-.5E+07") = true ∧
    pattern.rmatch (Utf8.encode "-.") = false := by decide +kernel

end Matches

/-! ## The reader takes the longest literal -/

section Longest

variable {rest : List UInt8}

theorem length_takeDigits_le (text : List UInt8) : (takeDigits text).2.length ≤ text.length :=
  (List.dropWhile_suffix isDigit).length_le

theorem length_takeFraction_le (text : List UInt8) :
    (takeFraction text).2.length ≤ text.length := by
  obtain ⟨fraction, -, -, htext⟩ := takeFraction_eq text
  have := congrArg List.length htext
  rw [List.length_append] at this
  omega

theorem length_takeExponent_le (text : List UInt8) :
    (takeExponent text).2.length ≤ text.length := by
  obtain ⟨exponent, -, htext⟩ := takeExponent_eq text
  have := congrArg List.length htext
  rw [List.length_append] at this
  omega

/-- Digits are taken together with the digits behind them. -/
theorem takeDigits_digits_append {digits : List UInt8} (h : ∀ b ∈ digits, isDigit b = true)
    (rest : List UInt8) :
    takeDigits (digits ++ rest) = (digits ++ (takeDigits rest).1, (takeDigits rest).2) := by
  rw [takeDigits, List.takeWhile_append_of_pos h, List.dropWhile_append_of_pos h]
  rfl

/-- Behind an exponent no more is left than what follows it. -/
theorem length_takeExponent_bytes_append_le (e : ExponentPart) (rest : List UInt8) :
    (takeExponent (e.bytes ++ rest)).2.length ≤ rest.length := by
  have hsign := (takeSign_append (e.head?_digits_ne rest) e.sign).1
  have hdigits := takeDigits_digits_append e.isDigit rest
  have hne : e.digits ++ (takeDigits rest).1 ≠ [] := List.append_ne_nil_of_left_ne_nil e.ne_nil _
  simp only [ExponentPart.bytes, List.cons_append, List.append_assoc, takeExponent, e.mark_eq,
    if_true, hsign, hdigits, List.isEmpty_iff, hne, if_false]
  exact length_takeDigits_le rest

/-- Nothing of an exponent is taken as digits or as a fraction. -/
theorem take_exponent_append (e : ExponentPart) (rest : List UInt8) :
    takeDigits (e.bytes ++ rest) = ([], e.bytes ++ rest) ∧
      takeFraction (e.bytes ++ rest) = ([], e.bytes ++ rest) := by
  have hhead : ∀ b ∈ (e.bytes ++ rest).head?, isDigit b = false ∧ b ≠ point := by
    rintro b ⟨⟩
    rcases e.mark_eq with h | h <;> rw [h] <;> decide
  have hnone : ∀ b ∈ (none : Option (List UInt8)).getD [], isDigit b = true :=
    List.forall_mem_nil _
  exact ⟨takeDigits_append (List.forall_mem_nil _) fun b hb => (hhead b hb).1,
    takeFraction_append hnone hhead⟩

/-- No digits are taken in front of a point, and behind it they are taken with what follows. -/
theorem take_point_append {digits : List UInt8} (h : ∀ b ∈ digits, isDigit b = true)
    (rest : List UInt8) :
    takeDigits (point :: (digits ++ rest)) = ([], point :: (digits ++ rest)) ∧
      takeFraction (point :: (digits ++ rest)) =
        (digits ++ (takeDigits rest).1, (takeDigits rest).2) :=
  ⟨rfl, takeDigits_digits_append h rest⟩

/-- Behind the whole digits, whatever fraction and exponent a literal has, no more is left than what
follows it. -/
theorem length_taken_append_le {fraction : Option (List UInt8)}
    (hfraction : ∀ b ∈ fraction.getD [], isDigit b = true) (exponent : Option ExponentPart)
    (rest : List UInt8) :
    (takeExponent (takeFraction (takeDigits
      (fractionBytes fraction ++ (exponentBytes exponent ++ rest))).2).2).2.length ≤
        rest.length := by
  cases fraction with
  | some digits =>
    obtain ⟨hwhole, htaken⟩ := take_point_append hfraction (exponentBytes exponent ++ rest)
    rw [fractionBytes, List.cons_append]
    simp only [Option.getD_some] at hwhole htaken
    rw [hwhole, htaken]
    cases exponent with
    | none => exact (length_takeExponent_le _).trans (length_takeDigits_le rest)
    | some e =>
      rw [exponentBytes, (take_exponent_append e rest).1]
      exact length_takeExponent_bytes_append_le e rest
  | none =>
    rw [fractionBytes, List.nil_append]
    cases exponent with
    | none =>
      exact ((length_takeExponent_le _).trans (length_takeFraction_le _)).trans
        (length_takeDigits_le rest)
    | some e =>
      obtain ⟨hwhole, hfraction⟩ := take_exponent_append e rest
      rw [exponentBytes, hwhole, hfraction]
      exact length_takeExponent_bytes_append_le e rest

/-- Without whole digits there are digits behind the point. -/
theorem Parts.taken_ne_nil (p : Parts) (rest : List UInt8) (hwhole : p.whole = []) :
    (takeFraction (takeDigits (fractionBytes p.fraction ++ rest)).2).1 ≠ [] := by
  have hne := p.ne_nil
  have hdigits := p.fraction_isDigit
  cases hf : p.fraction with
  | none =>
    rw [hf] at hne
    exact absurd ⟨hwhole, rfl⟩ hne
  | some digits =>
    rw [hf] at hne hdigits
    obtain ⟨hnone, htaken⟩ := take_point_append hdigits rest
    simp only [Option.getD_some] at hnone htaken hne
    rw [fractionBytes, List.cons_append, hnone, htaken]
    exact List.append_ne_nil_of_left_ne_nil (fun h => hne ⟨hwhole, h⟩) _

/-- **A text that begins with a literal is read**, and no less of it than the literal. -/
theorem exists_scan?_append (p : Parts) (rest : List UInt8) :
    ∃ d rest', scan? (p.bytes ++ rest) = some (d, rest') ∧ rest'.length ≤ rest.length := by
  have hne : ¬ ((p.whole ++ (takeDigits
      (fractionBytes p.fraction ++ (exponentBytes p.exponent ++ rest))).1).isEmpty &&
        (takeFraction (takeDigits
          (fractionBytes p.fraction ++ (exponentBytes p.exponent ++ rest))).2).1.isEmpty) = true := by
    rw [Bool.and_eq_true, List.isEmpty_iff, List.isEmpty_iff, List.append_eq_nil_iff]
    exact fun h => p.taken_ne_nil _ h.1.1 h.2
  simp only [scan?, Parts.bytes, List.append_assoc, takeMinus_append (p.head?_unsigned_ne rest),
    takeDigits_digits_append p.whole_isDigit, if_neg hne]
  exact ⟨_, _, rfl, length_taken_append_le p.fraction_isDigit p.exponent rest⟩

end Longest

/-! ## What comes of a text -/

theorem Longest.eq {text literal literal' : List UInt8} (h : Longest text literal)
    (h' : Longest text literal') : literal = literal' :=
  (List.prefix_of_prefix_length_le h.isPrefix h'.isPrefix
    (h'.length_le literal h.mem h.isPrefix)).eq_of_length_le (h.length_le literal' h'.mem h'.isPrefix)

/-- What literals write is told by their bytes. -/
theorem Parts.decimal_eq_of_bytes_eq {p p' : Parts} (h : p.bytes = p'.bytes) :
    p.decimal = p'.decimal := by
  have hp := scan?_bytes_append p stops_nil
  rw [h, scan?_bytes_append p' stops_nil] at hp
  simp only [Option.some.injEq, Prod.mk.injEq, and_true] at hp
  exact hp.symm

/-- One thing comes of a text. -/
theorem Outcome.unique {bytes : List UInt8} {start : Int}
    {r r' : Except (FaultCode × Int) (Double × Int)} (h : Outcome bytes start r)
    (h' : Outcome bytes start r') : r = r' := by
  cases h with
  | @number p d htext hd =>
    cases h' with
    | @number p' d' htext' hd' =>
      have hbytes := htext.eq htext'
      have hdecimal := Parts.decimal_eq_of_bytes_eq hbytes
      have hnegative : p.negative = p'.negative := congrArg Decimal.negative hdecimal
      have hmagnitude : p.magnitude = p'.magnitude := by
        rw [← p.magnitude_decimal, hdecimal, p'.magnitude_decimal]
      rw [hnegative, hmagnitude] at hd
      rw [hd.unique hd', hbytes]
    | missing hnone => exact absurd htext.isPrefix (hnone _ htext.mem)
  | missing hnone =>
    cases h' with
    | number htext' => exact absurd htext'.isPrefix (hnone _ htext'.mem)
    | missing => rfl

/-- A text that begins with a literal is read, and no less of it than the literal. -/
theorem exists_scan?_content {bytes literal : List UInt8} (hmem : literal ∈ pattern.matches')
    (h : literal <+: bytes) : ∃ d rest, scan? (content bytes) = some (d, rest) ∧
      literal.length + rest.length ≤ (content bytes).length := by
  obtain ⟨p, rfl⟩ := mem_pattern_iff.1 hmem
  obtain ⟨behind, rfl⟩ := h
  rw [content_append p.zero_not_mem_bytes, List.length_append]
  obtain ⟨d, rest, hscan, hlength⟩ := exists_scan?_append p (content behind)
  exact ⟨d, rest, hscan, Nat.add_le_add_left hlength _⟩

/-- What the reader takes is the longest literal. -/
theorem longest_of_scan? {bytes rest : List UInt8} {d : Decimal}
    (h : scan? (content bytes) = some (d, rest)) :
    ∃ p : Parts, Longest bytes p.bytes ∧ d = p.decimal ∧
      (content bytes).length = p.bytes.length + rest.length := by
  obtain ⟨p, htext, rfl⟩ := exists_parts_of_scan? h
  have hlength := congrArg List.length htext
  rw [List.length_append] at hlength
  refine ⟨p, ⟨mem_pattern_iff.2 ⟨p, rfl⟩, ?_, ?_⟩, rfl, hlength⟩
  · exact List.IsPrefix.trans ⟨rest, htext.symm⟩ (content_isPrefix bytes)
  · intro other hmem hprefix
    obtain ⟨d', rest', hscan, hle⟩ := exists_scan?_content hmem hprefix
    rw [h, Option.some.injEq, Prod.mk.injEq] at hscan
    rw [← hscan.2] at hle
    omega

/-- What the reader gives is what comes of the text. -/
theorem outcome_readAt (bytes : List UInt8) (start : Int) :
    Outcome bytes start ((readAt bytes start).mapError coded) := by
  cases hscan : scan? (content (textFrom bytes start)) with
  | none =>
    have hread : readAt bytes start = .error (.badNumber, start) := by
      simp only [readAt, Scan.runAt, read, hscan, Nat.sub_self, Int.natCast_zero, Int.add_zero]
    rw [hread]
    refine .missing fun literal hmem hprefix => ?_
    obtain ⟨d, rest, hsome, -⟩ := exists_scan?_content hmem hprefix
    rw [hscan] at hsome
    cases hsome
  | some taken =>
    obtain ⟨d, rest⟩ := taken
    obtain ⟨p, hp, rfl, hlength⟩ := longest_of_scan? hscan
    have hread : readAt bytes start = .ok (p.decimal.toDouble, start + p.bytes.length) := by
      simp only [readAt, Scan.runAt, read, hscan, hlength, Nat.add_sub_cancel]
    rw [hread]
    exact .number hp p.rounds_toDouble

/-- **The reader of numbers takes exactly the longest literal**: it succeeds where a literal begins,
gives the double nearest to what the longest one denotes, and fails on the spot where none begins. -/
theorem readAt_iff_longest (bytes : List UInt8) (start : Int) :
    ((∃ value, readAt bytes start = .ok value) ↔
        ∃ literal ∈ pattern.matches', literal <+: textFrom bytes start) ∧
      ∀ r, (readAt bytes start).mapError coded = r ↔ Outcome bytes start r := by
  have hread := outcome_readAt bytes start
  refine ⟨?_, fun r => ⟨fun h => h ▸ hread, hread.unique⟩⟩
  generalize readAt bytes start = result at hread
  constructor
  · rintro ⟨value, rfl⟩
    cases hread with
    | number htext => exact ⟨_, htext.mem, htext.isPrefix⟩
  · rintro ⟨literal, hmem, hprefix⟩
    cases result with
    | ok value => exact ⟨value, rfl⟩
    | error e =>
      generalize hcoded : Except.mapError coded (.error e : Except _ (Double × Int)) = r at hread
      cases hread with
      | number => cases hcoded
      | missing hnone => exact absurd hprefix (hnone literal hmem)

end LinkedJson.NumberLiteral
