import LinkedJson.Proofs.Text.Tightening
import LinkedJson.Proofs.Writing.Growing
import LinkedJson.Proofs.Writing.LayoutBlanks

/-!
# The two layouts

The pretty text of a tree without raw values is its compact text with blanks outside of literals, so
stripping the one gives the other (`JsonTree.stripTrivia_print`). Which depth a text is indented for
makes no difference, and neither does the layout to whether a tree can be written.
-/

namespace LinkedJson

open Ascii Trivia

/-! ## What a layout puts between tokens -/

namespace Layout

open Grammar

theorem isBlankCode_ofPretty {b : UInt8} {h : Ascii.isBlank b = true} (hb : IsBlankCode b.toNat)
    (pretty : Bool) : ∀ c ∈ (Blanks.ofPretty pretty b h).bytes, IsBlankCode c.toNat := by
  cases pretty with
  | false => exact fun _ hc => nomatch hc
  | true =>
    intro c hc
    rw [List.mem_singleton.1 hc]
    exact hb

theorem tightens_memberIndent (pretty : Bool) (depth : Nat) :
    Tightens (memberIndent pretty depth) [] := by
  refine tightens_of_blanks fun b hb => ?_
  cases pretty with
  | false => cases hb
  | true =>
    rw [List.eq_of_mem_replicate hb]
    decide

/-- A punctuation mark with blanks behind it. -/
theorem tightens_mark {mark b : UInt8} {h : Ascii.isBlank b = true} (hmark : Solid mark)
    (hb : IsBlankCode b.toNat) (pretty : Bool) :
    Tightens (mark :: (Blanks.ofPretty pretty b h).bytes) [mark] :=
  .mark hmark (tightens_of_blanks (isBlankCode_ofPretty hb pretty))

theorem tightens_itemSeparator (pretty : Bool) :
    Tightens (itemSeparator pretty) (itemSeparator false) := by
  rw [itemSeparator_eq]
  exact tightens_mark (by decide) (by decide) pretty

theorem tightens_objectStart (pretty : Bool) :
    Tightens (objectStart pretty) (objectStart false) := by
  rw [objectStart_eq]
  exact tightens_mark (by decide) (by decide) pretty

theorem tightens_nameSeparator (pretty : Bool) :
    Tightens (nameSeparator pretty) (nameSeparator false) := by
  rw [nameSeparator_eq]
  exact tightens_mark (by decide) (by decide) pretty

theorem tightens_memberEnd (pretty isLast : Bool) :
    Tightens (memberEnd pretty isLast) (memberEnd false isLast) := by
  rw [memberEnd_eq]
  cases isLast with
  | true => exact tightens_of_blanks (isBlankCode_ofPretty (h := by decide) (by decide) pretty)
  | false => exact tightens_mark (by decide) (by decide) pretty

theorem tightens_objectEnd (pretty : Bool) (depth depth' : Nat) :
    Tightens (objectEnd pretty depth) (objectEnd false depth') :=
  (tightens_memberIndent pretty depth).append (tightens_of_solid (by decide))

/-- What follows an item that may be the last one. -/
theorem tightens_itemEnd (pretty isLast : Bool) :
    Tightens (if isLast then [] else itemSeparator pretty)
      (if isLast then [] else itemSeparator false) := by
  cases isLast with
  | true => exact .nil
  | false => exact tightens_itemSeparator pretty

end Layout

/-! ## Tokens -/

theorem StringLiteral.tightens_literal (s : WideString) : Tightens (literal s) (literal s) :=
  tightens_of_bodyLength? (bodyLength?_escape_quote 0 s.encode []) (by simp)

theorem Number.solidText_text (n : Number) : SolidText (Utf8.encode n.text) := by
  by_cases h : ∃ x, n.value = .finite x
  · obtain ⟨x, hx⟩ := h
    rw [text_finite hx, FiniteDouble.encode_text]
    exact solidText_parts _
  · rw [text_not_finite (not_exists.1 h)]
    decide

theorem Scalar.tightens_render {v : Scalar} (h : ∀ text, v ≠ .raw text) :
    Tightens v.render v.render := by
  cases v with
  | null => exact tightens_of_solid (by decide)
  | bool value => cases value <;> exact tightens_of_solid (by decide)
  | number n => exact tightens_of_solid n.solidText_text
  | string s => exact StringLiteral.tightens_literal s
  | raw text => exact absurd rfl (h text)

/-! ## Trees -/

namespace JsonTree

open Layout

mutual

/-- **Without its blanks the text of a tree is its compact text.** -/
theorem tightens_render (pretty : Bool) (depth depth' : Nat) :
    ∀ t : JsonTree, (∀ v ∈ t.scalars, ∀ text, v ≠ .raw text) →
      Tightens (t.render pretty depth) (t.render false depth')
  | scalar _ v, h => Scalar.tightens_render (h v (List.mem_singleton_self v))
  | array _ [], _ => tightens_word "[]" (by decide)
  | array _ (t :: ts), h => by
    have hitems := tightens_renderItems pretty (depth + 1) (depth' + 1) (t :: ts) h
    rw [render, render]
    exact ((tightens_of_solid (by decide)).append hitems).append (tightens_of_solid (by decide))
  | object _ [], _ => tightens_word "\x7b\x7d" (by decide)
  | object _ (t :: ts), h => by
    have hmembers := tightens_renderMembers pretty (depth + 1) (depth' + 1) (t :: ts) h
    rw [render, render]
    exact ((tightens_objectStart pretty).append hmembers).append
      (tightens_objectEnd pretty depth depth')
  | reference _ target, h => tightens_render pretty depth depth' target h

theorem tightens_renderItems (pretty : Bool) (depth depth' : Nat) :
    ∀ ts : List JsonTree, (∀ v ∈ scalarsOf ts, ∀ text, v ≠ .raw text) →
      Tightens (renderItems pretty depth ts) (renderItems false depth' ts)
  | [], _ => .nil
  | t :: ts, h => by
    obtain ⟨ht, hts⟩ := List.forall_mem_append.1 h
    have hitem := tightens_render pretty depth depth' t ht
    rw [renderItems, renderItems]
    exact (hitem.append (tightens_itemEnd pretty ts.isEmpty)).append
      (tightens_renderItems pretty depth depth' ts hts)

theorem tightens_renderMembers (pretty : Bool) (depth depth' : Nat) :
    ∀ ts : List JsonTree, (∀ v ∈ scalarsOf ts, ∀ text, v ≠ .raw text) →
      Tightens (renderMembers pretty depth ts) (renderMembers false depth' ts)
  | [], _ => .nil
  | t :: ts, h => by
    obtain ⟨ht, hts⟩ := List.forall_mem_append.1 h
    have hname := (tightens_memberIndent pretty depth).append
      (StringLiteral.tightens_literal (t.label.key.getD ""))
    have hmember := (hname.append (tightens_nameSeparator pretty)).append
      (tightens_render pretty depth depth' t ht)
    rw [renderMembers, renderMembers]
    exact (hmember.append (tightens_memberEnd pretty ts.isEmpty)).append
      (tightens_renderMembers pretty depth depth' ts hts)

end

/-! ## Faults -/

mutual

/-- Which fault a tree has depends on how deep it may nest, and not on the layout. -/
theorem fault?_pieces_congr {options options' : WriteOptions}
    (hdepth : options'.maxDepth = options.maxDepth) (depth : Nat) :
    ∀ t : JsonTree, Piece.fault? (t.pieces options' depth) = Piece.fault? (t.pieces options depth)
  | scalar _ _ => rfl
  | array _ ts => by
    have hitems := fault?_itemPieces_congr hdepth (depth + 1) ts
    rw [pieces, pieces, hdepth]
    split
    · rfl
    · split
      · rfl
      · rw [Piece.fault?, Piece.fault?, Piece.fault?_append, Piece.fault?_append, hitems]
  | object _ ts => by
    have hmembers := fault?_memberPieces_congr hdepth (depth + 1) ts
    rw [pieces, pieces, hdepth]
    split
    · rfl
    · split
      · rfl
      · rw [Piece.fault?, Piece.fault?, Piece.fault?_append, Piece.fault?_append, hmembers]
        rfl
  | reference _ target => fault?_pieces_congr hdepth depth target

theorem fault?_itemPieces_congr {options options' : WriteOptions}
    (hdepth : options'.maxDepth = options.maxDepth) (depth : Nat) :
    ∀ ts : List JsonTree,
      Piece.fault? (itemPieces options' depth ts) = Piece.fault? (itemPieces options depth ts)
  | [] => rfl
  | t :: ts => by
    have hitem := fault?_pieces_congr hdepth depth t
    have hitems := fault?_itemPieces_congr hdepth depth ts
    simp only [itemPieces, Piece.fault?_append, Piece.fault?_ofSome, hitem, hitems]

theorem fault?_memberPieces_congr {options options' : WriteOptions}
    (hdepth : options'.maxDepth = options.maxDepth) (depth : Nat) :
    ∀ ts : List JsonTree,
      Piece.fault? (memberPieces options' depth ts) = Piece.fault? (memberPieces options depth ts)
  | [] => rfl
  | t :: ts => by
    have hmember := fault?_pieces_congr hdepth depth t
    have hmembers := fault?_memberPieces_congr hdepth depth ts
    simp only [memberPieces, Piece.fault?_append, Piece.fault?_ofSome, Piece.fault?, hmember,
      hmembers]

end

/-! ## Printing -/

/-- **The two layouts differ only by what stripping drops.** If a tree that reaches no raw value is
printed in the pretty layout, then whatever printing in the compact layout gives is that text
stripped; and that is given whenever no byte budget stands in the way. -/
theorem stripTrivia_print {t : JsonTree} {hint maxDepth : Int} {budget : ByteBudget} {s : String}
    (hraw : ∀ text, .raw text ∉ t.scalars) (h : (t.print ⟨true, hint, maxDepth⟩ budget).1 = .ok s) :
    (∀ hint' maxDepth' budget' s', (t.print ⟨false, hint', maxDepth'⟩ budget').1 = .ok s' →
      WideString.ofString s' = stripTrivia s) ∧
    ∀ (hint' : Int) budget', 0 ≤ hint' ∧ hint' ≤ greatestLength → budget'.limit = none →
      ∃ s', (t.print ⟨false, hint', maxDepth⟩ budget').1 = .ok s' ∧
        WideString.ofString s' = stripTrivia s := by
  have htight := tightens_render true 0 0 t fun v hv text heq => hraw text (heq ▸ hv)
  rw [← (of_print h).1] at htight
  have hslashes : SlashesQuoted s := slashesQuoted_ofString.2 htight.slashes
  have hstrip : (stripTrivia s).encode = t.render false 0 := by
    rw [stripTrivia_of_padded (padded_refl s) hslashes, encode_withoutBlanks_ofString,
      htight.tight_eq]
  have hgiven : ∀ hint' maxDepth' budget' s',
      (t.print ⟨false, hint', maxDepth'⟩ budget').1 = .ok s' →
        WideString.ofString s' = stripTrivia s := by
    intro hint' maxDepth' budget' s' h'
    have hcharacters := withoutBlanks_ofString s
    rw [← stripTrivia_of_padded (padded_refl (s : WideString)) hslashes] at hcharacters
    rw [hcharacters, WideString.encode_ofString] at hstrip
    rw [hcharacters, Utf8.encode_injective ((of_print h').1.trans hstrip.symm)]
  refine ⟨hgiven, fun hint' budget' hhint hbudget => ?_⟩
  obtain ⟨-, -, -, -, hfault, -⟩ := exists_settled_of_print h
  have hdepth : (WriteOptions.mk false hint' maxDepth).maxDepth =
    (WriteOptions.mk true hint maxDepth).maxDepth := rfl
  have hsame := fault?_pieces_congr hdepth 0 t
  have hroom : (t.render false 0).length < greatestLength := by
    have hpretty := length_render_lt_of_print h
    have hshorter := length_tight_le UInt8.toNat .outside (t.render true 0)
    rw [← (of_print h).1, htight.tight_eq, (of_print h).1] at hshorter
    exact Nat.lt_of_le_of_lt hshorter hpretty
  rw [hfault] at hsame
  obtain ⟨s', hs'⟩ := exists_print_of_fault?_eq_none hhint hbudget hsame hroom
  exact ⟨s', hs', hgiven _ _ _ s' hs'⟩

/-- A name that ends with a quote, and a string with a comment in it, a slash and a backslash at its
end, shown by a reference. -/
theorem stripTrivia_print_comment_in_string :
    stripTrivia "\x7b\n\t\"a\\\"\":\t[true, \" /* // \\\\\"]\n\x7d" =
      "\x7b\"a\\\"\":[true,\" /* // \\\\\"]\x7d" := by
  have hpretty : (print ⟨true, 0, 2⟩ .unlimited (.object .none [.reference (.owned "a\"")
      (.array .none [.scalar .none (.bool true), .scalar .none (.string " /* // \\")])])).1 =
      .ok "\x7b\n\t\"a\\\"\":\t[true, \" /* // \\\\\"]\n\x7d" :=
    eq_ok_of_toOption (by decide +kernel)
  have hcompact : (print ⟨false, 0, 2⟩ .unlimited (.object .none [.reference (.owned "a\"")
      (.array .none [.scalar .none (.bool true), .scalar .none (.string " /* // \\")])])).1 =
      .ok "\x7b\"a\\\"\":[true,\" /* // \\\\\"]\x7d" :=
    eq_ok_of_toOption (by decide +kernel)
  exact ((stripTrivia_print (fun text => by simp [scalars, scalarsOf]) hpretty).1 _ _ _ _
    hcompact).symm

end JsonTree

end LinkedJson
