import LinkedJson.Proofs.Grammar.Strict
import LinkedJson.Proofs.Number.Nearest
import LinkedJson.StringLiteral.Escape
import LinkedJson.Tree.Basic

/-!
# The meaning of strict text

What a derivation of the strict grammar denotes by the standard, without a reader: strings are
spelled character by character, with two escapes for a character above U+FFFF (`Spells`), numbers
are the nearest doubles of what their digits say, and arrays and objects keep the order of their
parts and every member, whatever its name (`Value.Denotes`). A derivation whose escapes are paired
(`Paired`) denotes a tree (`Value.exists_denotes`).
-/

namespace LinkedJson

/-! ## Numbers -/

namespace NumberLiteral

/-- The magnitude that the parts of a literal write: whole digits, a fraction of as many places as
it has digits, and a power of ten. -/
def Parts.magnitude (p : Parts) : ℚ :=
  (digitsValue p.whole + digitsValue (p.fraction.getD []) / 10 ^ (p.fraction.getD []).length) *
    10 ^ (p.exponent.map ExponentPart.value).getD 0

theorem digitsValue_append (digits more : List UInt8) :
    digitsValue (digits ++ more) = digitsValue digits * 10 ^ more.length + digitsValue more := by
  have hfold : ∀ (more : List UInt8) (n : Nat),
      more.foldl (fun n b => 10 * n + Ascii.digitValue b) n = n * 10 ^ more.length + digitsValue more := by
    intro more
    induction more with
    | nil => simp [digitsValue]
    | cons b more ih =>
      intro n
      rw [digitsValue, List.foldl_cons, List.foldl_cons, ih, ih, List.length_cons, pow_succ]
      ring
  rw [digitsValue, List.foldl_append, hfold]
  rfl

theorem Parts.magnitude_decimal (p : Parts) : p.decimal.magnitude = p.magnitude := by
  simp only [Decimal.magnitude, decimal, magnitude, digitsValue_append]
  push_cast
  rw [zpow_sub₀ (by norm_num), zpow_natCast]
  field_simp

/-- The double of a literal is the nearest one of what its digits say. -/
theorem Parts.rounds_toDouble (p : Parts) :
    Double.Rounds p.negative p.magnitude p.decimal.toDouble :=
  p.magnitude_decimal ▸ p.decimal.rounds_toDouble

end NumberLiteral

namespace Strict

open Ascii

/-! ## Strings -/

/-- The character of a short escape, by its letter. -/
def shortCharacter (letter : UInt8) : Char :=
  if letter = 0x62 then '\x08'
  else if letter = 0x66 then '\x0c'
  else if letter = 0x6e then '\n'
  else if letter = 0x72 then '\r'
  else if letter = 0x74 then '\t'
  else Char.ofNat letter.toNat

/-- The code unit that hexadecimal digits write. -/
def codeUnit (digits : List UInt8) : Nat :=
  digits.foldl (fun n d => 16 * n + (hexValue? d).getD 0) 0

/-- The characters that the items of a string spell. An escape by code is a character of its own, or
one half of a character. -/
inductive Spells : List StringItem → List Char → Prop
  | nil : Spells [] []
  | plain {c h items cs} (hitems : Spells items cs) : Spells (.plain c h :: items) (c :: cs)
  | short {letter h items cs} (hitems : Spells items cs) :
    Spells (.short letter h :: items) (shortCharacter letter :: cs)
  | code {digits h c items cs} (hc : c.toNat = codeUnit digits) (hitems : Spells items cs) :
    Spells (.code digits h :: items) (c :: cs)
  | pair {high hhigh low hlow c items cs}
    (hfirst : Utf16.isHighSurrogate (codeUnit high) = true)
    (hsecond : Utf16.isLowSurrogate (codeUnit low) = true)
    (hc : c.toNat = Utf16.joinSurrogates (codeUnit high) (codeUnit low))
    (hitems : Spells items cs) :
    Spells (.code high hhigh :: .code low hlow :: items) (c :: cs)

/-- The code unit of an escape by code. -/
def StringItem.unit? : StringItem → Option Nat
  | plain .. | short .. => none
  | code digits _ => some (codeUnit digits)

/-- The code unit that is escaped at a place of a string. -/
def unitAt? (items : List StringItem) (i : Nat) : Option Nat :=
  items[i]?.bind StringItem.unit?

/-- No escape is the code unit 0, and surrogates come in pairs of a high and a low one. -/
structure Paired (items : List StringItem) : Prop where
  nonzero : ∀ i, unitAt? items i ≠ some 0
  low_of_high : ∀ i, ∀ unit ∈ unitAt? items i, Utf16.isHighSurrogate unit = true →
    ∃ low ∈ unitAt? items (i + 1), Utf16.isLowSurrogate low = true
  high_of_low : ∀ i, ∀ unit ∈ unitAt? items i, Utf16.isLowSurrogate unit = true →
    ∃ j, i = j + 1 ∧ ∃ high ∈ unitAt? items j, Utf16.isHighSurrogate high = true

/-! ## Values -/

mutual

/-- The tree that a value denotes. -/
inductive Value.Denotes : Value → JsonTree → Prop
  | null : Value.Denotes .null (.scalar .none .null)
  | bool {value} : Value.Denotes (.bool value) (.scalar .none (.bool value))
  | string {items cs} (h : Spells items cs) :
    Value.Denotes (.string items) (.scalar .none (.string (String.ofList cs)))
  | number {number d} (h : Double.Rounds number.negative number.magnitude d) :
    Value.Denotes (.number number) (.scalar .none (.number (.ofDouble d)))
  | emptyArray {inside} : Value.Denotes (.emptyArray inside) (.array .none [])
  | array {items ts} (h : Items.Denote items ts) : Value.Denotes (.array items) (.array .none ts)
  | emptyObject {inside} : Value.Denotes (.emptyObject inside) (.object .none [])
  | object {members ts} (h : Members.Denote members ts) :
    Value.Denotes (.object members) (.object .none ts)

/-- The trees that the items of an array denote, in order. -/
inductive Items.Denote : Items → List JsonTree → Prop
  | last {before value after t} (h : Value.Denotes value t) :
    Items.Denote (.last before value after) [t]
  | more {before value after rest t ts} (h : Value.Denotes value t) (hrest : Items.Denote rest ts) :
    Items.Denote (.more before value after rest) (t :: ts)

/-- The trees that the members of an object denote, in order, each under its name. -/
inductive Members.Denote : Members → List JsonTree → Prop
  | last {before name beforeColon afterColon value after cs t} (hname : Spells name cs)
    (h : Value.Denotes value t) :
    Members.Denote (.last before name beforeColon afterColon value after)
      [t.withLabel (.owned (String.ofList cs))]
  | more {before name beforeColon afterColon value after rest cs t ts} (hname : Spells name cs)
    (h : Value.Denotes value t) (hrest : Members.Denote rest ts) :
    Members.Denote (.more before name beforeColon afterColon value after rest)
      (t.withLabel (.owned (String.ofList cs)) :: ts)

end

mutual

/-- The strings of a value and the names in it. -/
def Value.strings : Value → List (List StringItem)
  | .null | .bool _ | .number _ | .emptyArray _ | .emptyObject _ => []
  | .string items => [items]
  | .array items => items.strings
  | .object members => members.strings

def Items.strings : Items → List (List StringItem)
  | .last _ value _ => value.strings
  | .more _ value _ rest => value.strings ++ rest.strings

def Members.strings : Members → List (List StringItem)
  | .last _ name _ _ value _ => name :: value.strings
  | .more _ name _ _ value _ rest => name :: (value.strings ++ rest.strings)

end

mutual

/-- The greatest number of containers that stand in each other. -/
def Value.nesting : Value → Nat
  | .null | .bool _ | .string _ | .number _ => 0
  | .emptyArray _ | .emptyObject _ => 1
  | .array items => items.nesting + 1
  | .object members => members.nesting + 1

def Items.nesting : Items → Nat
  | .last _ value _ => value.nesting
  | .more _ value _ rest => max value.nesting rest.nesting

def Members.nesting : Members → Nat
  | .last _ _ _ _ value _ => value.nesting
  | .more _ _ _ _ value _ rest => max value.nesting rest.nesting

end

/-! ## Paired escapes spell characters -/

/-- Paired escapes stay paired without a first item that is no high surrogate. -/
theorem Paired.tail {item : StringItem} {items : List StringItem} (h : Paired (item :: items))
    (hitem : ∀ unit ∈ item.unit?, Utf16.isHighSurrogate unit = false) : Paired items := by
  refine ⟨fun i => h.nonzero (i + 1), fun i => h.low_of_high (i + 1), ?_⟩
  intro i unit hunit hlow
  obtain ⟨j, hj, high, hhigh, hsurrogate⟩ := h.high_of_low (i + 1) unit hunit hlow
  cases j with
  | zero => exact absurd hsurrogate (by simp [hitem high hhigh])
  | succ j => exact ⟨j, by omega, high, hhigh, hsurrogate⟩

theorem not_isHighSurrogate_of_isLowSurrogate {unit : Nat}
    (h : Utf16.isLowSurrogate unit = true) : Utf16.isHighSurrogate unit = false := by
  simp only [Utf16.isLowSurrogate, Utf16.isHighSurrogate, Bool.and_eq_true, decide_eq_true_eq,
    Bool.and_eq_false_iff, decide_eq_false_iff_not] at h ⊢
  omega

/-- Paired escapes stay paired without a first pair. -/
theorem Paired.tail_tail {high low : List UInt8} {hhigh hlow} {items : List StringItem}
    (h : Paired (.code high hhigh :: .code low hlow :: items))
    (hlow : Utf16.isLowSurrogate (codeUnit low) = true) : Paired items := by
  refine ⟨fun i => h.nonzero (i + 2), fun i => h.low_of_high (i + 2), ?_⟩
  intro i unit hunit hsurrogate
  obtain ⟨j, hj, first, hfirst, hfirst_high⟩ := h.high_of_low (i + 2) unit hunit hsurrogate
  cases i with
  | zero =>
    -- the item in front is the low half of the pair that is taken off
    obtain rfl : j = 1 := by omega
    cases hfirst
    exact absurd hfirst_high (by simp [not_isHighSurrogate_of_isLowSurrogate hlow])
  | succ i =>
    obtain rfl : j = i + 2 := by omega
    exact ⟨i, rfl, first, hfirst, hfirst_high⟩

/-- Four hexadecimal digits write a code unit. -/
theorem exists_codeUnit {digits : List UInt8}
    (h : digits.length = 4 ∧ ∀ d ∈ digits, (hexValue? d).isSome = true) :
    (∀ rest, Escape.codeUnit? (digits ++ rest) = some (codeUnit digits)) ∧
      codeUnit digits < 0x10000 := by
  obtain ⟨hlength, hdigits⟩ := h
  match digits, hlength with
  | [a, b, c, d], _ =>
    simp only [List.forall_mem_cons, Option.isSome_iff_exists] at hdigits
    obtain ⟨⟨va, ha⟩, ⟨vb, hb⟩, ⟨vc, hc⟩, ⟨vd, hd⟩, -⟩ := hdigits
    have hunit : ∀ rest, Escape.codeUnit? ([a, b, c, d] ++ rest) = some (codeUnit [a, b, c, d]) := by
      intro rest
      simp only [List.cons_append, List.nil_append, Escape.codeUnit?, codeUnit, List.foldl_cons,
        List.foldl_nil, ha, hb, hc, hd, Option.getD_some]
      show some _ = some _
      congr 1
      omega
    exact ⟨hunit, Escape.codeUnit?_lt (hunit [])⟩

theorem exists_char {n : Nat} (h : n.isValidChar) : ∃ c : Char, c.toNat = n :=
  ⟨Char.ofNat n, by rw [Char.ofNat, dif_pos h]; rfl⟩

/-- **Paired escapes spell characters.** -/
theorem Paired.exists_spells {items : List StringItem} (h : Paired items) :
    ∃ cs, Spells items cs := by
  match items with
  | [] => exact ⟨[], .nil⟩
  | .plain c hc :: items =>
    obtain ⟨cs, hcs⟩ := (h.tail fun _ hunit => nomatch hunit).exists_spells
    exact ⟨_, .plain hcs⟩
  | .short letter hletter :: items =>
    obtain ⟨cs, hcs⟩ := (h.tail fun _ hunit => nomatch hunit).exists_spells
    exact ⟨_, .short hcs⟩
  | .code digits hdigits :: items =>
    by_cases hhigh : Utf16.isHighSurrogate (codeUnit digits) = true
    · obtain ⟨low, hunit, hlow⟩ := h.low_of_high 0 _ rfl hhigh
      match items with
      | [] => cases hunit
      | .plain _ _ :: _ => cases hunit
      | .short _ _ :: _ => cases hunit
      | .code digits' hdigits' :: items =>
        cases hunit
        obtain ⟨cs, hcs⟩ := (h.tail_tail hlow).exists_spells
        obtain ⟨c, hc⟩ : ∃ c : Char,
            c.toNat = Utf16.joinSurrogates (codeUnit digits) (codeUnit digits') := by
          refine exists_char (.inr ?_)
          simp only [Utf16.isHighSurrogate, Utf16.isLowSurrogate, Bool.and_eq_true,
            decide_eq_true_eq] at hhigh hlow
          unfold Utf16.joinSurrogates
          omega
        exact ⟨_, .pair hhigh hlow hc hcs⟩
    · rw [Bool.not_eq_true] at hhigh
      have hlow : ¬ Utf16.isLowSurrogate (codeUnit digits) = true := by
        intro hlow
        obtain ⟨j, hj, -⟩ := h.high_of_low 0 _ rfl hlow
        omega
      obtain ⟨cs, hcs⟩ := (h.tail (by rintro _ ⟨⟩; exact hhigh)).exists_spells
      obtain ⟨c, hc⟩ : ∃ c : Char, c.toNat = codeUnit digits := by
        refine exists_char ?_
        have := (exists_codeUnit hdigits).2
        simp only [Utf16.isHighSurrogate, Utf16.isLowSurrogate, Bool.and_eq_true,
          Bool.and_eq_false_iff, decide_eq_true_eq, decide_eq_false_iff_not] at hhigh hlow
        unfold Nat.isValidChar
        omega
      exact ⟨_, .code hc hcs⟩

/-! ## Values denote trees -/

mutual

/-- **A value whose escapes are paired denotes a tree.** -/
theorem Value.exists_denotes : ∀ v : Value, (∀ items ∈ v.strings, Paired items) →
    ∃ t, v.Denotes t
  | .null, _ => ⟨_, .null⟩
  | .bool _, _ => ⟨_, .bool⟩
  | .string items, h => by
    obtain ⟨cs, hcs⟩ := (h items (List.mem_singleton_self _)).exists_spells
    exact ⟨_, .string hcs⟩
  | .number number, _ => ⟨_, .number number.rounds_toDouble⟩
  | .emptyArray _, _ => ⟨_, .emptyArray⟩
  | .array items, h => by
    obtain ⟨ts, hts⟩ := items.exists_denote h
    exact ⟨_, .array hts⟩
  | .emptyObject _, _ => ⟨_, .emptyObject⟩
  | .object members, h => by
    obtain ⟨ts, hts⟩ := members.exists_denote h
    exact ⟨_, .object hts⟩

theorem Items.exists_denote : ∀ items : Items, (∀ string ∈ items.strings, Paired string) →
    ∃ ts, items.Denote ts
  | .last _ value _, h => by
    obtain ⟨t, ht⟩ := value.exists_denotes h
    exact ⟨_, .last ht⟩
  | .more _ value _ rest, h => by
    obtain ⟨t, ht⟩ := value.exists_denotes fun s hs => h s (List.mem_append_left _ hs)
    obtain ⟨ts, hts⟩ := rest.exists_denote fun s hs => h s (List.mem_append_right _ hs)
    exact ⟨_, .more ht hts⟩

theorem Members.exists_denote : ∀ members : Members, (∀ string ∈ members.strings, Paired string) →
    ∃ ts, members.Denote ts
  | .last _ name _ _ value _, h => by
    obtain ⟨cs, hcs⟩ := (h name List.mem_cons_self).exists_spells
    obtain ⟨t, ht⟩ := value.exists_denotes fun s hs => h s (List.mem_cons_of_mem _ hs)
    exact ⟨_, .last hcs ht⟩
  | .more _ name _ _ value _ rest, h => by
    obtain ⟨cs, hcs⟩ := (h name List.mem_cons_self).exists_spells
    obtain ⟨t, ht⟩ := value.exists_denotes fun s hs =>
      h s (List.mem_cons_of_mem _ (List.mem_append_left _ hs))
    obtain ⟨ts, hts⟩ := rest.exists_denote fun s hs =>
      h s (List.mem_cons_of_mem _ (List.mem_append_right _ hs))
    exact ⟨_, .more hcs ht hts⟩

end

end Strict

end LinkedJson
