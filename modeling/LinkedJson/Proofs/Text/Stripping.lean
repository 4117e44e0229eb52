import LinkedJson.Proofs.Text.CodeUnits
import LinkedJson.Text.Trivia

/-!
# What is left of a text

Going through a text unit by unit, one is outside of string literals, inside of one, or behind a
backslash inside of one (`Mode`). A text whose slashes all stand in literals has no comments, and
stripping it drops the blanks outside of its literals and nothing else; comments and blanks that are
put in outside of literals make no difference (`stripTrivia_of_padded`).

The modes tell quotes, backslashes and blanks by their codes, so they go through the characters and
the bytes of a text in the same way as through its code units (`Spells.flatMap_tight`,
`decode_tight`). Only surrogates that a dropped blank had kept apart would make a difference, and
there are none outside of literals where all codes are below 128.
-/

namespace LinkedJson

namespace Trivia

/-! ## Modes -/

/-- Where a place of a text is with respect to the string literals. -/
inductive Mode where
  | outside
  | inside
  /-- Inside, right behind a backslash. -/
  | escaped
  deriving DecidableEq

/-- The mode behind one more character, by its code. -/
def Mode.next : Mode → Nat → Mode
  | outside, code => if code = 0x22 then inside else outside
  | inside, code => if code = 0x22 then outside else if code = 0x5c then escaped else inside
  | escaped, _ => inside

/-- The codes of space, tab, carriage return and line feed. -/
def IsBlankCode (code : Nat) : Prop :=
  code = 0x20 ∨ code = 0x09 ∨ code = 0x0d ∨ code = 0x0a

instance (code : Nat) : Decidable (IsBlankCode code) :=
  inferInstanceAs (Decidable (_ ∨ _))

section

variable {α : Type} (code : α → Nat)

/-- The mode behind a text. -/
def Mode.after (m : Mode) (text : List α) : Mode :=
  text.foldl (fun m c => m.next (code c)) m

/-- A text without the blanks outside of its literals. -/
def tight (m : Mode) : List α → List α
  | [] => []
  | c :: text =>
    if m = .outside ∧ IsBlankCode (code c) then tight m text
    else c :: tight (m.next (code c)) text

/-- The codes of a text have a property wherever they stand outside of literals. -/
def Outside (P : Nat → Prop) (m : Mode) : List α → Prop
  | [] => True
  | c :: text => (m = .outside → P (code c)) ∧ Outside P (m.next (code c)) text

/-- All slashes of a text stand in literals. -/
abbrev SlashesInside (m : Mode) (text : List α) : Prop :=
  Outside code (· ≠ 0x2f) m text

variable {code} {P Q : Nat → Prop} {m : Mode} {xs ys : List α}

theorem IsBlankCode.next_outside {code : Nat} (h : IsBlankCode code) :
    Mode.outside.next code = .outside := by
  refine if_neg ?_
  rintro rfl
  exact absurd h (by decide)

theorem tight_of_blank {c : α} (h : m = .outside ∧ IsBlankCode (code c)) (text : List α) :
    tight code m (c :: text) = tight code m text :=
  if_pos h

theorem tight_of_not_blank {c : α} (h : ¬ (m = .outside ∧ IsBlankCode (code c)))
    (text : List α) : tight code m (c :: text) = c :: tight code (m.next (code c)) text :=
  if_neg h

/-- Inside of a literal everything is kept. -/
theorem tight_cons_inside (hm : m ≠ .outside) (c : α) (text : List α) :
    tight code m (c :: text) = c :: tight code (m.next (code c)) text :=
  tight_of_not_blank (fun h => hm h.1) text

theorem tight_cons (c : α) (text : List α) :
    tight code m (c :: text) =
      (if m = .outside ∧ IsBlankCode (code c) then [] else [c]) ++
        tight code (m.next (code c)) text := by
  rw [tight]
  split
  · rename_i h
    obtain ⟨rfl, hblank⟩ := h
    rw [hblank.next_outside, List.nil_append]
  · rfl

theorem after_append : m.after code (xs ++ ys) = (m.after code xs).after code ys :=
  List.foldl_append

theorem tight_append :
    tight code m (xs ++ ys) = tight code m xs ++ tight code (m.after code xs) ys := by
  induction xs generalizing m with
  | nil => rfl
  | cons c xs ih =>
    rw [List.cons_append, tight_cons, ih, tight_cons, List.append_assoc]
    rfl

theorem tight_eq_self (h : ∀ c ∈ xs, ¬ IsBlankCode (code c)) : tight code m xs = xs := by
  induction xs generalizing m with
  | nil => rfl
  | cons c xs ih =>
    obtain ⟨hc, hxs⟩ := List.forall_mem_cons.1 h
    rw [tight, if_neg fun h => hc h.2, ih hxs]

theorem outside_append :
    Outside code P m (xs ++ ys) ↔
      Outside code P m xs ∧ Outside code P (m.after code xs) ys := by
  induction xs generalizing m with
  | nil => exact (true_and _).symm.to_iff
  | cons c xs ih =>
    rw [List.cons_append, Outside, ih, Outside, and_assoc]
    rfl

theorem Outside.mono (h : Outside code P m xs) (hPQ : ∀ code, P code → Q code) :
    Outside code Q m xs := by
  induction xs generalizing m with
  | nil => trivial
  | cons c xs ih => exact ⟨fun hm => hPQ _ (h.1 hm), ih h.2⟩

/-- What goes on while no blank is met goes on as far without the blanks. -/
theorem takeWhile_tight {p : α → Bool} (hp : ∀ c, IsBlankCode (code c) → p c = true) :
    (tight code m xs).takeWhile p = tight code m (xs.takeWhile p) := by
  induction xs generalizing m with
  | nil => rfl
  | cons c xs ih =>
    by_cases hc : p c = true
    · rw [List.takeWhile_cons_of_pos hc, tight, tight]
      split
      · exact ih
      · rw [List.takeWhile_cons_of_pos hc, ih]
    · rw [tight_cons, if_neg fun h => hc (hp c h.2), List.singleton_append,
        List.takeWhile_cons_of_neg hc, List.takeWhile_cons_of_neg hc]
      rfl

theorem length_tight_le (code : α → Nat) (m : Mode) (text : List α) :
    (tight code m text).length ≤ text.length := by
  fun_induction tight code m text with
  | case1 => exact Nat.le_refl 0
  | case2 m c text h ih => exact Nat.le_succ_of_le ih
  | case3 m c text h ih => exact Nat.succ_le_succ ih

end

/-! ## Padding -/

/-- What may be put between code units outside of literals: a blank, a line comment with its line
feed, or a block comment. A slash is the unit 0x2f, an asterisk 0x2a and a line feed 0x0a. -/
inductive Padding : List UInt16 → Prop
  | blank {c : UInt16} : c ∈ [0x20, 0x09, 0x0d, 0x0a] → Padding [c]
  | line (body : List UInt16) : 0x0a ∉ body → Padding (0x2f :: 0x2f :: (body ++ [0x0a]))
  | block (body : List UInt16) :
    ¬ [0x2a, 0x2f] <:+: body → Padding (0x2f :: 0x2a :: (body ++ [0x2a, 0x2f]))

/-- The second text is the first one with padding at places outside of literals. -/
inductive Inserted : Mode → List UInt16 → List UInt16 → Prop
  | nil {m : Mode} : Inserted m [] []
  | keep {m : Mode} {c : UInt16} {s t : List UInt16} :
      Inserted (m.next c.toNat) s t → Inserted m (c :: s) (c :: t)
  | pad {padding s t : List UInt16} :
      Padding padding → Inserted .outside s t → Inserted .outside s (padding ++ t)

theorem Inserted.refl (m : Mode) (s : List UInt16) : Inserted m s s := by
  induction s generalizing m with
  | nil => exact .nil
  | cons c s ih => exact .keep (ih _)

/-! ## Stripping step by step -/

theorem isBlank_iff {c : UInt16} : isBlank c = true ↔ IsBlankCode c.toNat := by
  simp only [isBlank, Bool.or_eq_true, beq_iff_eq, IsBlankCode, ← UInt16.toNat_inj, or_assoc]
  rfl

theorem isBlank_of_mem {c : UInt16} (h : c ∈ [0x20, 0x09, 0x0d, 0x0a]) : isBlank c = true := by
  simpa [isBlank, or_assoc] using h

/-! ### Literals -/

theorem literalLength_quote (n : Nat) (text : List UInt16) :
    literalLength n (0x22 :: text) = n + 1 := by
  rw [literalLength]

theorem literalLength_escape (n : Nat) (c : UInt16) (text : List UInt16) :
    literalLength n (0x5c :: c :: text) = literalLength (n + 2) text := by
  rw [literalLength]

theorem literalLength_plain {c : UInt16} (hquote : c ≠ 0x22) (hbackslash : c ≠ 0x5c) (n : Nat)
    (text : List UInt16) : literalLength n (c :: text) = literalLength (n + 1) text := by
  rw [literalLength]
  · exact fun h => hquote h
  · exact fun _ _ h => absurd h hbackslash

/-- What is counted already adds to the length. -/
theorem literalLength_add (n k : Nat) (text : List UInt16) :
    literalLength (n + k) text = n + literalLength k text := by
  induction k, text using literalLength.induct with
  | case1 k text => rw [literalLength_quote, literalLength_quote, Nat.add_assoc]
  | case2 k c text ih => rw [literalLength_escape, literalLength_escape, Nat.add_assoc, ih]
  | case3 k c text hquote hescape ih =>
    rw [literalLength, literalLength, Nat.add_assoc, ih]
    · exact hquote
    · exact hescape
    · exact hquote
    · exact hescape
  | case4 k => rfl

/-- Stripping goes on inside of a literal, the rest of which is kept. -/
def resumeInside (out text : List UInt16) : List UInt16 :=
  let n := literalLength 0 text
  strip ((text.take n).reverse ++ out) (text.drop n)

/-- Stripping goes on in a mode. -/
def resume : Mode → List UInt16 → List UInt16 → List UInt16
  | .outside, out, text => strip out text
  | .inside, out, text => resumeInside out text
  | .escaped, out, [] => out.reverse
  | .escaped, out, c :: text => resumeInside (c :: out) text

/-- Units at the front of the rest of a literal are kept. -/
theorem resumeInside_append (front : List UInt16) {text : List UInt16}
    (h : literalLength 0 (front ++ text) = literalLength front.length text) (out : List UInt16) :
    resumeInside out (front ++ text) = resumeInside (front.reverse ++ out) text := by
  have hadd := literalLength_add front.length 0 text
  rw [Nat.add_zero] at hadd
  simp only [resumeInside]
  rw [h, hadd, List.take_length_add_append, List.drop_length_add_append, List.reverse_append,
    List.append_assoc]

theorem resume_nil (m : Mode) (out : List UInt16) : resume m out [] = out.reverse := by
  cases m <;> simp [resume, resumeInside, literalLength, strip]

/-- Whatever is no blank and no slash outside of literals is kept. -/
theorem resume_cons {m : Mode} {c : UInt16}
    (h : m = .outside → ¬ IsBlankCode c.toNat ∧ c.toNat ≠ 0x2f) (out text : List UInt16) :
    resume m out (c :: text) = resume (m.next c.toNat) (c :: out) text := by
  have hquote (hc : c ≠ 0x22) : c.toNat ≠ 0x22 := fun heq => hc (UInt16.toNat_inj.1 heq)
  have hbackslash (hc : c ≠ 0x5c) : c.toNat ≠ 0x5c := fun heq => hc (UInt16.toNat_inj.1 heq)
  cases m with
  | outside =>
    obtain ⟨hblank, hslash⟩ := h rfl
    have hne : c ≠ 0x2f := fun heq => hslash (heq ▸ rfl)
    rw [resume, strip, if_neg (mt isBlank_iff.1 hblank), if_neg fun h => hne h.1,
      if_neg fun h => hne h.1]
    by_cases hc : c = 0x22
    · rw [if_pos hc, hc]
      rfl
    · rw [if_neg hc, Mode.next, if_neg (hquote hc), resume]
  | inside =>
    rw [resume]
    by_cases hc : c = 0x22
    · rw [hc, resumeInside, literalLength_quote]
      rfl
    · by_cases hc' : c = 0x5c
      · subst hc'
        cases text with
        | nil => simp [resumeInside, literalLength, strip, Mode.next, resume]
        | cons d text =>
          exact resumeInside_append [0x5c, d] (literalLength_escape 0 d text) out
      · rw [Mode.next, if_neg (hquote hc), if_neg (hbackslash hc'), resume]
        exact resumeInside_append [c] (literalLength_plain hc hc' 0 text) out
  | escaped => rfl

/-! ### Outside of literals -/

theorem strip_blank {c : UInt16} (h : isBlank c = true) (out text : List UInt16) :
    strip out (c :: text) = strip out text := by
  rw [strip, if_pos h]

theorem strip_line {body : List UInt16} (h : 0x0a ∉ body) (out text : List UInt16) :
    strip out (0x2f :: 0x2f :: (body ++ [0x0a]) ++ text) = strip out text := by
  have hbody : ∀ c ∈ 0x2f :: body, decide (c ≠ 0x0a) = true := by
    intro c hc
    rcases List.mem_cons.1 hc with rfl | hc
    · decide
    · exact decide_eq_true fun heq => h (heq ▸ hc)
  have hafter : afterLine (0x2f :: body ++ 0x0a :: text) = 0x0a :: text := by
    rw [afterLine, List.dropWhile_append_of_pos hbody, List.dropWhile_cons_of_neg (by decide)]
  have htext : 0x2f :: 0x2f :: (body ++ [0x0a]) ++ text =
      0x2f :: (0x2f :: body ++ 0x0a :: text) := by
    simp
  rw [htext, strip, if_neg (by decide), if_pos ⟨rfl, rfl⟩]
  rw [hafter, strip_blank (by decide)]

/-- The end of a block comment is found behind a body that does not hold one. -/
theorem afterBlock_append {body : List UInt16} (h : ¬ [0x2a, 0x2f] <:+: body) (text : List UInt16) :
    afterBlock (body ++ 0x2a :: 0x2f :: text) = text := by
  induction body with
  | nil => rw [List.nil_append, afterBlock]
  | cons c body ih =>
    have hbody : ¬ [0x2a, 0x2f] <:+: body := fun hinside =>
      h (hinside.trans (List.suffix_cons c body).isInfix)
    rw [List.cons_append, afterBlock, ih hbody]
    rintro rest rfl hrest
    cases body with
    | nil => cases hrest
    | cons d body =>
      obtain ⟨rfl, -⟩ := List.cons.inj hrest
      exact h ⟨[], body, rfl⟩

theorem strip_block {body : List UInt16} (h : ¬ [0x2a, 0x2f] <:+: body) (out text : List UInt16) :
    strip out (0x2f :: 0x2a :: (body ++ [0x2a, 0x2f]) ++ text) = strip out text := by
  have htext : 0x2f :: 0x2a :: (body ++ [0x2a, 0x2f]) ++ text =
      0x2f :: 0x2a :: (body ++ 0x2a :: 0x2f :: text) := by
    simp
  rw [htext, strip, if_neg (by decide), if_neg (by simp), if_pos ⟨rfl, rfl⟩]
  dsimp only [List.tail_cons]
  rw [afterBlock_append h]

theorem strip_padding {padding : List UInt16} (h : Padding padding) (out text : List UInt16) :
    strip out (padding ++ text) = strip out text := by
  cases h with
  | blank h => exact strip_blank (isBlank_of_mem h) out text
  | line _ h => exact strip_line h out text
  | block _ h => exact strip_block h out text

/-- Stripping a padded text whose slashes stand in literals drops the padding and the blanks. -/
theorem resume_inserted {m : Mode} {s t : List UInt16} (h : Inserted m s t)
    (hslashes : SlashesInside UInt16.toNat m s) (out : List UInt16) :
    resume m out t = out.reverse ++ tight UInt16.toNat m s := by
  induction h generalizing out with
  | nil => rw [resume_nil, tight, List.append_nil]
  | @keep m c s t _ ih =>
    obtain ⟨hslash, hslashes⟩ := hslashes
    rw [tight_cons]
    split
    · rename_i hblank
      obtain ⟨rfl, hblank⟩ := hblank
      rw [hblank.next_outside] at ih hslashes ⊢
      exact (strip_blank (isBlank_iff.2 hblank) out t).trans (ih hslashes out)
    · rename_i hblank
      rw [resume_cons (fun hm => ⟨fun hc => hblank ⟨hm, hc⟩, hslash hm⟩), ih hslashes]
      simp
  | pad hpadding _ ih => exact (strip_padding hpadding out _).trans (ih hslashes out)

/-! ## Encodings -/

/-- Codes from 128 on change the mode alike. -/
theorem Mode.next_of_le {code : Nat} (h : 0x80 ≤ code) (m : Mode) : m.next code = m.next 0x80 := by
  have hquote : code ≠ 0x22 := by omega
  have hbackslash : code ≠ 0x5c := by omega
  cases m with
  | outside => exact if_neg hquote
  | inside => exact (if_neg hquote).trans (if_neg hbackslash)
  | escaped => rfl

/-- One such code does as much as two. -/
theorem Mode.next_next (m : Mode) : (m.next 0x80).next 0x80 = m.next 0x80 := by
  cases m <;> rfl

theorem Mode.next_eq_inside {m : Mode} (hm : m ≠ .outside) {code : Nat} (h : 0x80 ≤ code) :
    m.next code = .inside := by
  rw [next_of_le h]
  cases m with
  | outside => exact absurd rfl hm
  | inside => rfl
  | escaped => rfl

theorem not_isBlankCode_of_le {code : Nat} (h : 0x80 ≤ code) : ¬ IsBlankCode code := by
  unfold IsBlankCode
  omega

section

variable {α β : Type} {code : α → Nat} {code' : β → Nat} {f : α → List β} {P : Nat → Prop}

theorem Mode.after_of_le {bs : List β} (h : ∀ b ∈ bs, 0x80 ≤ code' b) (hne : bs ≠ []) (m : Mode) :
    m.after code' bs = m.next 0x80 := by
  induction bs generalizing m with
  | nil => exact absurd rfl hne
  | cons b bs ih =>
    obtain ⟨hb, hbs⟩ := List.forall_mem_cons.1 h
    have hstep : m.after code' (b :: bs) = (m.next 0x80).after code' bs :=
      congrArg (·.after code' bs) (m.next_of_le hb)
    rw [hstep]
    by_cases hnil : bs = []
    · rw [hnil]
      rfl
    · rw [ih hbs hnil, m.next_next]

/-- The property makes no difference between codes from 128 on. -/
def Coarse (P : Nat → Prop) : Prop :=
  ∀ code, 0x80 ≤ code → (P code ↔ P 0x80)

theorem outside_of_le {bs : List β} (hP : Coarse P) (h : ∀ b ∈ bs, 0x80 ≤ code' b) (hne : bs ≠ [])
    (m : Mode) : Outside code' P m bs ↔ (m = .outside → P 0x80) := by
  induction bs generalizing m with
  | nil => exact absurd rfl hne
  | cons b bs ih =>
    obtain ⟨hb, hbs⟩ := List.forall_mem_cons.1 h
    rw [Outside, hP _ hb, m.next_of_le hb]
    by_cases hnil : bs = []
    · rw [hnil]
      exact ⟨And.left, fun hm => ⟨hm, trivial⟩⟩
    · have hmode : m.next 0x80 = .outside ↔ m = .outside := by cases m <;> decide
      rw [ih hbs hnil, hmode, and_self]

/-- An encoding, element by element. What has a code below 128 becomes one element of the same code,
and anything else becomes elements of codes from 128 on. -/
structure Spells (code : α → Nat) (code' : β → Nat) (f : α → List β) : Prop where
  of_lt : ∀ a, code a < 0x80 → ∃ b, f a = [b] ∧ code' b = code a
  of_le : ∀ a, 0x80 ≤ code a → ∀ b ∈ f a, 0x80 ≤ code' b
  ne_nil : ∀ a, f a ≠ []

namespace Spells

variable (h : Spells code code' f)

include h

/-- An element changes the mode as what it becomes does. -/
theorem after (m : Mode) (a : α) : m.after code' (f a) = m.next (code a) := by
  by_cases ha : code a < 0x80
  · obtain ⟨b, hb, hcode⟩ := h.of_lt a ha
    rw [hb, ← hcode]
    rfl
  · have hle := Nat.le_of_not_lt ha
    rw [m.next_of_le hle]
    exact Mode.after_of_le (h.of_le a hle) (h.ne_nil a) m

theorem tight (m : Mode) (a : α) :
    tight code' m (f a) = if m = .outside ∧ IsBlankCode (code a) then [] else f a := by
  by_cases ha : code a < 0x80
  · obtain ⟨b, hb, hcode⟩ := h.of_lt a ha
    rw [hb, tight_cons, hcode]
    exact List.append_nil _
  · have hle := Nat.le_of_not_lt ha
    rw [if_neg fun hblank => not_isBlankCode_of_le hle hblank.2]
    exact tight_eq_self fun b hb => not_isBlankCode_of_le (h.of_le a hle b hb)

theorem outside_iff (hP : Coarse P) (m : Mode) (a : α) :
    Outside code' P m (f a) ↔ (m = .outside → P (code a)) := by
  by_cases ha : code a < 0x80
  · obtain ⟨b, hb, hcode⟩ := h.of_lt a ha
    rw [hb, ← hcode]
    exact ⟨And.left, fun hm => ⟨hm, trivial⟩⟩
  · have hle := Nat.le_of_not_lt ha
    rw [outside_of_le hP (h.of_le a hle) (h.ne_nil a), hP _ hle]

/-- Blanks are dropped from an encoded text as they are from the text. -/
theorem flatMap_tight (m : Mode) (text : List α) :
    (Trivia.tight code m text).flatMap f = Trivia.tight code' m (text.flatMap f) := by
  induction text generalizing m with
  | nil => rfl
  | cons a text ih =>
    rw [List.flatMap_cons, tight_append, h.tight, h.after, ← ih, tight_cons, List.flatMap_append]
    congr 1
    split
    · rfl
    · exact List.flatMap_singleton ..

theorem outside_flatMap_iff (hP : Coarse P) (m : Mode) (text : List α) :
    Outside code' P m (text.flatMap f) ↔ Outside code P m text := by
  induction text generalizing m with
  | nil => exact Iff.rfl
  | cons a text ih =>
    rw [List.flatMap_cons, outside_append, h.outside_iff hP, h.after, ih]
    rfl

end Spells

end

theorem spells_utf8EncodeChar : Spells Char.toNat UInt8.toNat String.utf8EncodeChar where
  of_lt c hc := by
    refine ⟨_, Utf8.utf8EncodeChar_of_lt hc, ?_⟩
    rw [Nat.toUInt8_eq, UInt8.toNat_ofNat']
    omega
  of_le _ hc := Utf8.le_of_mem_utf8EncodeChar hc
  ne_nil _ := String.utf8EncodeChar_ne_nil

theorem spells_encodeChar : Spells Char.toNat UInt16.toNat Utf16.encodeChar where
  of_lt c hc :=
    ⟨_, Utf16.encodeChar_of_lt (Nat.lt_trans hc (by decide)),
      Utf16.toNat_toUInt16_of_lt (Nat.lt_trans hc (by decide))⟩
  of_le c hc := Utf16.le_of_mem_encodeChar hc
  ne_nil _ := Utf16.encodeChar_ne_nil

theorem coarse_ne_slash : Coarse (· ≠ 0x2f) :=
  fun code h => iff_of_true (by omega) (by decide)

theorem coarse_lt : Coarse (· < 0x80) :=
  fun code h => iff_of_false (Nat.not_lt.2 h) (by decide)

/-! ## Lone surrogates -/

section

open Utf16

variable {m : Mode}

theorem next_decodeUnit (m : Mode) (u : UInt16) : m.next (decodeUnit u).toNat = m.next u.toNat := by
  rcases code_decodeUnit u with h | ⟨h, h'⟩
  · rw [h]
  · rw [m.next_of_le h, m.next_of_le h']

theorem isBlankCode_decodeUnit {u : UInt16} :
    IsBlankCode (decodeUnit u).toNat ↔ IsBlankCode u.toNat := by
  rcases code_decodeUnit u with h | ⟨h, h'⟩
  · rw [h]
  · exact iff_of_false (not_isBlankCode_of_le h) (not_isBlankCode_of_le h')

/-- A surrogate is kept inside of a literal, and the literal goes on behind it. -/
theorem tight_cons_inside_of_le (hm : m ≠ .outside) {u : UInt16} (hu : 0x80 ≤ u.toNat)
    (units : List UInt16) :
    tight UInt16.toNat m (u :: units) = u :: tight UInt16.toNat .inside units := by
  rw [tight_cons_inside hm, Mode.next_eq_inside hm hu]

/-- **Blanks are dropped from code units as they are from their characters**, if these are below 128
outside of literals. Then no surrogate stands there that could come to make a pair. -/
theorem decode_tight {units : List UInt16} (h : Outside Char.toNat (· < 0x80) m (decode units)) :
    decode (tight UInt16.toNat m units) = tight Char.toNat m (decode units) := by
  fun_induction decode units generalizing m with
  | case1 => rfl
  | case2 u =>
    by_cases hblank : m = .outside ∧ IsBlankCode u.toNat
    · rw [tight_of_blank hblank, tight_of_blank (hblank.imp_right isBlankCode_decodeUnit.2)]
      rfl
    · rw [tight_of_not_blank hblank,
        tight_of_not_blank (mt (And.imp_right isBlankCode_decodeUnit.1) hblank)]
      rfl
  | case3 u v units hpair ih =>
    rw [Bool.and_eq_true] at hpair
    have hchar := toNat_joinSurrogates hpair.1 hpair.2
    have hcode : 0x80 ≤ (Char.ofNat (joinSurrogates u.toNat v.toNat)).toNat := by
      rw [hchar]
      unfold joinSurrogates
      omega
    have hm : m ≠ .outside := fun hm => Nat.not_lt.2 hcode (h.1 hm)
    have hhigh := isHighSurrogate_iff.1 hpair.1
    have hlow := isLowSurrogate_iff.1 hpair.2
    have hrest := h.2
    rw [Mode.next_eq_inside hm hcode] at hrest
    rw [tight_cons_inside_of_le hm (by omega), tight_cons_inside_of_le (by decide) (by omega),
      decode_pair hpair.1 hpair.2, ih hrest, tight_cons_inside hm, Mode.next_eq_inside hm hcode]
  | case4 u v units hpair ih =>
    have hrest := h.2
    rw [next_decodeUnit] at hrest
    by_cases hblank : m = .outside ∧ IsBlankCode u.toNat
    · have hblank' := hblank.imp_right isBlankCode_decodeUnit.2
      rw [hblank.1, hblank.2.next_outside] at hrest
      rw [tight_of_blank hblank, tight_of_blank hblank', hblank.1]
      exact ih hrest
    · have hblank' := mt (And.imp_right isBlankCode_decodeUnit.1) hblank
      -- behind a high surrogate comes what came there before, since a literal goes on
      have hnext : isHighSurrogate u.toNat = true →
          ∀ w ∈ (tight UInt16.toNat (m.next u.toNat) (v :: units)).head?,
            isLowSurrogate w.toNat = false := by
        intro hhigh w hw
        have hreplaced := decodeUnit_of_surrogate (.inl hhigh)
        have hm : m ≠ .outside := fun hm => absurd (h.1 hm) (by rw [hreplaced]; decide)
        have hle := (isHighSurrogate_iff.1 hhigh).1
        rw [Mode.next_eq_inside hm (by omega), tight_cons_inside (by decide)] at hw
        cases hw
        rw [hhigh, Bool.true_and] at hpair
        exact Bool.not_eq_true _ ▸ hpair
      rw [tight_of_not_blank hblank, decode_cons hnext, ih hrest, tight_of_not_blank hblank',
        next_decodeUnit]

/-- The bytes do not become more when blanks are dropped. -/
theorem length_encode_tight_le (m : Mode) (front units : List UInt16) :
    (WideString.encode ⟨front ++ tight UInt16.toNat m units⟩).length ≤
      (WideString.encode ⟨front ++ units⟩).length := by
  induction units generalizing m front with
  | nil => exact Nat.le_refl _
  | cons u units ih =>
    by_cases hblank : m = .outside ∧ IsBlankCode u.toNat
    · have hhigh : isHighSurrogate u.toNat = false := by
        rcases hblank.2 with h | h | h | h <;> rw [h] <;> rfl
      have hlow : isLowSurrogate u.toNat = false := by
        rcases hblank.2 with h | h | h | h <;> rw [h] <;> rfl
      have hrest := ih m front
      have happend := WideString.length_encode_append_le front units
      rw [tight_of_blank hblank, WideString.encode_append_cons hhigh hlow]
      simp only [List.length_append]
      omega
    · have hrest := ih (m.next u.toNat) (front ++ [u])
      rw [List.append_assoc, List.append_assoc] at hrest
      rw [tight_of_not_blank hblank]
      exact hrest

end

end Trivia

/-! ## Whole texts -/

/-- All slashes of the text stand in its string literals. -/
def SlashesQuoted (s : WideString) : Prop :=
  Trivia.SlashesInside UInt16.toNat .outside s.units

/-- The second text is the first one with blanks and comments put in outside of string literals. -/
def Padded (s t : WideString) : Prop :=
  Trivia.Inserted .outside s.units t.units

/-- The text without the spaces, tabs, carriage returns and line feeds outside of its string
literals. -/
def withoutBlanks (s : WideString) : WideString :=
  ⟨Trivia.tight UInt16.toNat .outside s.units⟩

theorem padded_refl (s : WideString) : Padded s s :=
  .refl _ _

/-- **Stripping undoes padding**, and drops the blanks outside of literals. -/
theorem stripTrivia_of_padded {s t : WideString} (h : Padded s t) (hslashes : SlashesQuoted s) :
    stripTrivia t = withoutBlanks s :=
  congrArg WideString.mk (Trivia.resume_inserted h hslashes [])

/-! ### Bytes -/

open Trivia

/-- The slashes of a string of characters are those of its bytes. -/
theorem slashesQuoted_ofString {s : String} :
    SlashesQuoted s ↔ SlashesInside UInt8.toNat .outside (Utf8.encode s) := by
  have hunits := spells_encodeChar.outside_flatMap_iff coarse_ne_slash .outside s.toList
  have hbytes := spells_utf8EncodeChar.outside_flatMap_iff coarse_ne_slash .outside s.toList
  exact hunits.trans hbytes.symm

/-- A string of characters stays one without its blanks. -/
theorem withoutBlanks_ofString (s : String) :
    withoutBlanks s = String.ofList (tight Char.toNat .outside s.toList) := by
  have h := spells_encodeChar.flatMap_tight .outside s.toList
  rw [withoutBlanks, WideString.ofString, WideString.ofString, String.toList_ofList]
  exact congrArg WideString.mk h.symm

/-- The bytes of a text without blanks are the bytes of the text without blanks. -/
theorem encode_withoutBlanks_ofString (s : String) :
    (withoutBlanks s).encode = tight UInt8.toNat .outside (Utf8.encode s) := by
  rw [withoutBlanks_ofString, WideString.encode_ofString, Utf8.encode_ofList,
    spells_utf8EncodeChar.flatMap_tight]
  rfl

theorem encode_withoutBlanks {s : WideString}
    (h : Outside UInt8.toNat (· < 0x80) .outside s.encode) :
    (withoutBlanks s).encode = tight UInt8.toNat .outside s.encode := by
  obtain ⟨units⟩ := s
  rw [WideString.encode_mk, spells_utf8EncodeChar.outside_flatMap_iff coarse_lt] at h
  rw [withoutBlanks, WideString.encode_mk, decode_tight h, spells_utf8EncodeChar.flatMap_tight,
    WideString.encode_mk]

/-- **What is read of a text without blanks** is what is read of the text, without its blanks, if
there are only codes below 128 outside of the literals that are read. -/
theorem content_encode_withoutBlanks {s : WideString}
    (h : Outside UInt8.toNat (· < 0x80) .outside (content s.encode)) :
    content (withoutBlanks s).encode = tight UInt8.toNat .outside (content s.encode) := by
  have hblank : ∀ u : UInt16, IsBlankCode u.toNat → decide (u ≠ 0) = true := by
    intro u hu
    refine decide_eq_true ?_
    rintro rfl
    exact absurd hu (by decide)
  rw [WideString.content_encode] at h ⊢
  rw [WideString.content_encode, ← encode_withoutBlanks h, withoutBlanks, takeWhile_tight hblank]
  rfl

theorem length_encode_withoutBlanks_le (s : WideString) :
    (withoutBlanks s).encode.length ≤ s.encode.length :=
  length_encode_tight_le .outside [] s.units

end LinkedJson
