import LinkedJson.Proofs.Literal.NumberParts
import LinkedJson.Proofs.Literal.StringExtent
import LinkedJson.Proofs.Text.Stripping

/-!
# Texts without blanks, piece by piece

`Tightens text kept` says of a piece of a text that begins and ends outside of literals, and has
slashes and bytes from 128 on in literals only, what is left of it without the blanks. It holds of
pieces one after the other. A string literal is left as it is, since it ends at the same quote for
those who read it and for those who skip it (`tightens_of_bodyLength?`).
-/

namespace LinkedJson.Trivia

open Ascii

/-- What may stand outside of literals: anything below 128 but a slash. -/
def Bare (code : Nat) : Prop :=
  code ≠ 0x2f ∧ code < 0x80

/-- The piece ends outside of literals, has no slash and nothing from 128 on there, and is `kept`
without the blanks there. -/
structure Tightens (text kept : List UInt8) : Prop where
  outside : Mode.outside.after UInt8.toNat text = .outside
  bare : Outside UInt8.toNat Bare .outside text
  tight_eq : tight UInt8.toNat .outside text = kept

namespace Tightens

variable {text text' kept kept' : List UInt8}

theorem nil : Tightens [] [] :=
  ⟨rfl, trivial, rfl⟩

theorem append (h : Tightens text kept) (h' : Tightens text' kept') :
    Tightens (text ++ text') (kept ++ kept') where
  outside := by rw [after_append, h.outside, h'.outside]
  bare := outside_append.2 ⟨h.bare, h.outside.symm ▸ h'.bare⟩
  tight_eq := by rw [tight_append, h.outside, h.tight_eq, h'.tight_eq]

theorem slashes (h : Tightens text kept) : SlashesInside UInt8.toNat .outside text :=
  h.bare.mono fun _ => And.left

theorem lt (h : Tightens text kept) : Outside UInt8.toNat (· < 0x80) .outside text :=
  h.bare.mono fun _ => And.right

end Tightens

/-- Without quotes and slashes nothing matters but which bytes are blanks. -/
theorem tightens_filter {text : List UInt8}
    (h : ∀ b ∈ text, b ≠ quote ∧ b ≠ slash ∧ b.toNat < 0x80) :
    Tightens text (text.filter fun b => ¬ IsBlankCode b.toNat) := by
  induction text with
  | nil => exact .nil
  | cons b text ih =>
    obtain ⟨⟨hquote, hslash, hlt⟩, htext⟩ := List.forall_mem_cons.1 h
    have hnext : Mode.outside.next b.toNat = .outside :=
      if_neg fun heq => hquote (UInt8.toNat_inj.1 heq)
    have hbyte : Tightens [b] ([b].filter fun b => ¬ IsBlankCode b.toNat) := by
      refine ⟨hnext, ⟨fun _ => ⟨fun heq => hslash (UInt8.toNat_inj.1 heq), hlt⟩, trivial⟩, ?_⟩
      by_cases hblank : IsBlankCode b.toNat <;> simp [tight, hblank]
    have := hbyte.append (ih htext)
    rwa [← List.filter_append, List.singleton_append] at this

/-- Below 128, and no blank, quote or slash. -/
def Solid (b : UInt8) : Prop :=
  (b ≠ quote ∧ b ≠ slash ∧ b.toNat < 0x80) ∧ ¬ IsBlankCode b.toNat

instance (b : UInt8) : Decidable (Solid b) :=
  inferInstanceAs (Decidable ((_ ∧ _ ∧ _) ∧ _))

/-- A text of such bytes. -/
def SolidText (text : List UInt8) : Prop :=
  ∀ b ∈ text, Solid b

/-- The bytes are looked through one after another. -/
instance (text : List UInt8) : Decidable (SolidText text) :=
  List.decidableBAll Solid text

theorem tightens_of_solid {text : List UInt8} (h : SolidText text) : Tightens text text := by
  have := tightens_filter fun b hb => (h b hb).1
  rwa [List.filter_eq_self.2 fun b hb => decide_eq_true (h b hb).2] at this

/-- A word of solid bytes. -/
theorem tightens_word (word : String) (h : SolidText (Utf8.encode word)) :
    Tightens (Utf8.encode word) (Utf8.encode word) :=
  tightens_of_solid h

/-- A punctuation mark stays where it is. -/
theorem Tightens.mark {mark : UInt8} {text kept : List UInt8} (hmark : Solid mark)
    (h : Tightens text kept) : Tightens (mark :: text) (mark :: kept) := by
  have hsingle : Tightens [mark] [mark] :=
    tightens_of_solid (List.forall_mem_singleton.2 hmark)
  exact hsingle.append h

theorem tightens_of_blanks {text : List UInt8} (h : ∀ b ∈ text, IsBlankCode b.toNat) :
    Tightens text [] := by
  have hplain : ∀ b ∈ text, b ≠ quote ∧ b ≠ slash ∧ b.toNat < 0x80 := by
    intro b hb
    have hblank := h b hb
    refine ⟨?_, ?_, ?_⟩
    · rintro rfl
      exact absurd hblank (by decide)
    · rintro rfl
      exact absurd hblank (by decide)
    · unfold IsBlankCode at hblank
      omega
  have := tightens_filter hplain
  rwa [List.filter_eq_nil_iff.2 fun b hb => by simpa using h b hb] at this

/-! ## Literals -/

theorem next_inside {b : UInt8} (hquote : b ≠ quote) (hbackslash : b ≠ backslash) :
    Mode.inside.next b.toNat = .inside :=
  (if_neg fun heq => hquote (UInt8.toNat_inj.1 heq)).trans
    (if_neg fun heq => hbackslash (UInt8.toNat_inj.1 heq))

/-- Inside of a literal any byte may stand. -/
theorem outside_cons_inside {P : Nat → Prop} {m : Mode} (hm : m ≠ .outside) {b : UInt8}
    {text : List UInt8} (h : Outside UInt8.toNat P (m.next b.toNat) text) :
    Outside UInt8.toNat P m (b :: text) :=
  ⟨fun hm' => absurd hm' hm, h⟩

/-- Inside of a literal a text is kept up to the closing quote, and behind it the literal is over.
-/
theorem inside_of_bodyLength? {n m : Nat} {text : List UInt8}
    (h : StringLiteral.bodyLength? n text = some m) (hlength : n + text.length = m + 1) :
    Mode.inside.after UInt8.toNat text = .outside ∧ Outside UInt8.toNat Bare .inside text ∧
      tight UInt8.toNat .inside text = text := by
  fun_induction StringLiteral.bodyLength? n text with
  | case1 n => cases h
  | case2 n text =>
    cases h
    rw [List.length_cons] at hlength
    have hnil : text = [] := List.length_eq_zero_iff.1 (by omega)
    subst hnil
    exact ⟨rfl, outside_cons_inside (by decide) trivial, rfl⟩
  | case3 n hquote => cases h
  | case4 n c text hquote ih =>
    rw [List.length_cons, List.length_cons] at hlength
    obtain ⟨houtside, hbare, htight⟩ := ih h (by omega)
    refine ⟨houtside, outside_cons_inside (by decide)
      (outside_cons_inside (by decide) hbare), ?_⟩
    have hnext : Mode.inside.next backslash.toNat = .escaped := rfl
    rw [tight_cons_inside (by decide), hnext, tight_cons_inside (by decide)]
    exact congrArg (backslash :: c :: ·) htight
  | case5 n b text hquote hbackslash ih =>
    rw [List.length_cons] at hlength
    obtain ⟨houtside, hbare, htight⟩ := ih h (by omega)
    have hnext := next_inside hquote hbackslash
    refine ⟨?_, outside_cons_inside (by decide) (hnext.symm ▸ hbare), ?_⟩
    · exact (congrArg (·.after UInt8.toNat text) hnext).trans houtside
    · rw [tight_cons_inside (by decide), hnext, htight]

/-- A string literal is kept as it is. -/
theorem tightens_of_bodyLength? {n : Nat} {inner : List UInt8}
    (h : StringLiteral.bodyLength? 0 inner = some n) (hlength : inner.length = n + 1) :
    Tightens (quote :: inner) (quote :: inner) := by
  obtain ⟨houtside, hbare, htight⟩ := inside_of_bodyLength? h (by omega)
  refine ⟨houtside, ⟨fun _ => ⟨by decide, by decide⟩, hbare⟩, ?_⟩
  rw [tight, if_neg (by decide)]
  exact congrArg (quote :: ·) htight

theorem solid_of_isDigit {b : UInt8} (h : isDigit b = true) : Solid b := by
  have hcode := isDigit_iff.1 h
  refine ⟨⟨?_, ?_, by omega⟩, ?_⟩
  · rintro rfl
    exact absurd h (by decide)
  · rintro rfl
    exact absurd h (by decide)
  · unfold IsBlankCode
    omega

/-- A number literal has no blank, quote or slash. -/
theorem solidText_parts (p : NumberLiteral.Parts) : SolidText p.bytes := by
  have hdigits {digits : List UInt8} (h : ∀ b ∈ digits, isDigit b = true) : SolidText digits :=
    fun b hb => solid_of_isDigit (h b hb)
  have hsign : SolidText (NumberLiteral.signBytes p.negative) := by
    cases p.negative <;> decide
  have hfraction : SolidText (NumberLiteral.fractionBytes p.fraction) := by
    have hdigit := p.fraction_isDigit
    cases hp : p.fraction with
    | none => exact fun _ h => nomatch h
    | some digits =>
      rw [hp] at hdigit
      exact List.forall_mem_cons.2 ⟨by decide, hdigits hdigit⟩
  have hexponent : SolidText (NumberLiteral.exponentBytes p.exponent) := by
    cases p.exponent with
    | none => exact fun _ h => nomatch h
    | some e =>
      have hmark : Solid e.mark := by
        rcases e.mark_eq with h | h <;> rw [h] <;> decide
      have hsign : SolidText e.sign.bytes := by
        cases e.sign <;> decide
      exact List.forall_mem_cons.2
        ⟨hmark, List.forall_mem_append.2 ⟨hsign, hdigits e.isDigit⟩⟩
  exact List.forall_mem_append.2 ⟨hsign, List.forall_mem_append.2 ⟨hdigits p.whole_isDigit,
    List.forall_mem_append.2 ⟨hfraction, hexponent⟩⟩⟩

end LinkedJson.Trivia
