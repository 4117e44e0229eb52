import LinkedJson.Proofs.Grammar.Completeness

/-!
# Only derivations are read

When the reader of trees builds a tree, what it has passed over is a derivation that denotes the
tree (`value_sound`), by induction on the levels that are left, and for the items of one container
on the commas that are left. The loops start behind blanks, so a derivation of items takes the
blanks before it as given.
-/

namespace LinkedJson.Grammar

open Ascii Reading

/-! ## Blanks and scalars -/

theorem exists_blanks (text : List UInt8) : ∃ w : Blanks, w.bytes ++ skipBlanks text = text := by
  refine ⟨⟨text.takeWhile isBlank, ?_⟩, List.takeWhile_append_dropWhile⟩
  intro b hb
  exact List.all_eq_true.1 List.all_takeWhile b hb

theorem exists_value_of_atomAt {text rest : List UInt8} {s : Scalar} (h : AtomAt text s rest) :
    ∃ v : Value, text = v.bytes ++ rest ∧ v.tree = .scalar .none s ∧ v.nesting = 0 := by
  cases h with
  | null => exact ⟨.null, rfl, rfl, rfl⟩
  | false => exact ⟨.bool false, rfl, rfl, rfl⟩
  | true => exact ⟨.bool true, rfl, rfl, rfl⟩
  | string hread =>
    obtain ⟨literal, rfl, hliteral⟩ := StringLiteral.eq_append_of_read hread
    exact ⟨.string ⟨literal, _, hliteral⟩, rfl, rfl, rfl⟩
  | number hfirst hread =>
    rename_i first tail d
    obtain ⟨literal, htext, hliteral⟩ := NumberLiteral.eq_append_of_read hread
    obtain ⟨tail', rfl⟩ : ∃ tail', literal = first :: tail' := by
      cases literal with
      | nil => cases hliteral
      | cons b tail' =>
        cases htext
        exact ⟨tail', rfl⟩
    exact ⟨.number ⟨first :: tail', d, hliteral, first, rfl, hfirst⟩, htext, rfl, rfl⟩

/-! ## Items and members -/

section

variable {limits : ReadLimits} {levels : Nat}

/-- Whatever this reader takes off a text is a value with at most `levels` nested containers. -/
def ReadsValues (levels : Nat) (read : Reader Nat JsonTree) : Prop :=
  ∀ {c c' : Cursor Nat} {t : JsonTree}, read c = .ok (t, c') →
    ∃ v : Value, c.rest = v.bytes ++ c'.rest ∧ v.tree = t ∧ v.nesting ≤ levels

theorem items_sound {read : Reader Nat JsonTree} (hread : ReadsValues levels read) {commas : Nat}
    {children children' : List JsonTree} {c c' : Cursor Nat}
    (h : separated (JsonTree.builder none) read commas children c = .ok (children', c'))
    (before : Blanks) :
    ∃ items : Items, before.bytes ++ c.rest = items.bytes ++ c'.rest ∧
      children' = items.trees.reverse ++ children ∧ items.nesting ≤ levels := by
  obtain ⟨t, after, hitem, hturn⟩ := separated_eq_ok_iff.1 h
  obtain ⟨v, hv, rfl, hnesting⟩ := hread hitem
  obtain ⟨w, hw⟩ := exists_blanks after.rest
  rcases hturn with ⟨rfl, rfl, -⟩ | ⟨n, rest, rfl, hcomma, hmore⟩
  · refine ⟨.last before v w, ?_, rfl, hnesting⟩
    simp [hv, hw, Items.bytes]
  · obtain ⟨w', hw'⟩ := exists_blanks rest
    obtain ⟨items, hitems, rfl, hle⟩ := items_sound hread hmore w'
    refine ⟨.more before v w items, ?_, ?_, Nat.max_le.2 ⟨hnesting, hle⟩⟩
    · rw [← hw, hcomma, ← hw', hitems] at hv
      simp [hv, Items.bytes]
    · simp [Items.trees, JsonTree.builder]
termination_by commas

theorem members_sound {read : Reader Nat JsonTree} (hread : ReadsValues levels read) {commas : Nat}
    {children children' : List JsonTree} {c c' : Cursor Nat}
    (h : separated (JsonTree.builder none) (member (JsonTree.builder none) read) commas children c =
      .ok (children', c')) (before : Blanks) :
    ∃ members : Members, before.bytes ++ c.rest = members.bytes ++ c'.rest ∧
      children' = members.trees.reverse ++ children ∧ members.nesting ≤ levels := by
  obtain ⟨t, after, hmember, hturn⟩ := separated_eq_ok_iff.1 h
  obtain ⟨name, afterName, afterColon, u, last, hname, hcolon, hvalue, rfl, rfl⟩ :=
    member_eq_ok_iff.1 hmember
  obtain ⟨literal, hliteral, hread_literal⟩ := StringLiteral.eq_append_of_read hname
  obtain ⟨b, hb⟩ := exists_blanks afterName
  obtain ⟨b', hb'⟩ := exists_blanks afterColon
  obtain ⟨v, hv, rfl, hnesting⟩ := hread hvalue
  obtain ⟨w, hw⟩ := exists_blanks last.rest
  replace hv : skipBlanks afterColon = v.bytes ++ last.rest := hv
  rw [← hb, hcolon, ← hb', hv] at hliteral
  rcases hturn with ⟨rfl, rfl, -⟩ | ⟨n, rest, rfl, hcomma, hmore⟩
  · refine ⟨.last before ⟨literal, name, hread_literal⟩ b b' v w, ?_, rfl, hnesting⟩
    simp [hliteral, hw, Members.bytes]
  · obtain ⟨w', hw'⟩ := exists_blanks rest
    obtain ⟨members, hmembers, rfl, hle⟩ := members_sound hread hmore w'
    refine ⟨.more before ⟨literal, name, hread_literal⟩ b b' v w members, ?_, ?_,
      Nat.max_le.2 ⟨hnesting, hle⟩⟩
    · rw [← hw, hcomma, ← hw', hmembers] at hliteral
      simp [hliteral, Members.bytes]
    · simp [Members.trees, JsonTree.builder]
termination_by commas

/-- **Soundness.** Where a value is read, a derivation of it stands in the text. -/
theorem value_sound (limits : ReadLimits) (levels : Nat) :
    ReadsValues levels (value (JsonTree.builder none) limits levels) := by
  induction levels with
  | zero =>
    intro c c' t h
    rcases value_eq_ok_iff.1 h with ⟨n, rest, hn, -⟩ | ⟨n, rest, hn, -⟩ | ⟨-, -, hatom⟩
    · cases hn
    · cases hn
    · obtain ⟨s, hat, hscalar⟩ := atom_eq_ok_iff.1 hatom
      obtain ⟨rfl, -⟩ := Prod.mk.inj (Option.some.inj hscalar)
      obtain ⟨v, hv, htree, hnesting⟩ := exists_value_of_atomAt hat
      exact ⟨v, hv, htree, Nat.le_of_eq hnesting⟩
  | succ levels ih =>
    intro c c' t h
    rcases value_eq_ok_iff.1 h with
      ⟨n, rest, hn, hopen, hcontainer⟩ | ⟨n, rest, hn, hopen, hcontainer⟩ | ⟨-, -, hatom⟩
    · cases hn
      obtain ⟨w, hw⟩ := exists_blanks rest
      rcases container_eq_ok_iff.1 hcontainer with
        ⟨hclose, htake⟩ | ⟨-, children, inside, hitems, hclose, htake⟩
      · obtain ⟨rfl, -⟩ := Prod.mk.inj (Option.some.inj htake)
        replace hclose : skipBlanks rest = closeBracket :: c'.rest := hclose
        refine ⟨.emptyArray w, ?_, rfl, Nat.le_add_left ..⟩
        rw [hopen, ← hw, hclose, Value.bytes_emptyArray_append]
      · obtain ⟨rfl, -⟩ := Prod.mk.inj (Option.some.inj htake)
        obtain ⟨items, hbytes, rfl, hle⟩ := items_sound ih hitems w
        replace hbytes : w.bytes ++ skipBlanks rest = items.bytes ++ inside.rest := hbytes
        refine ⟨.array items, ?_, ?_, Nat.succ_le_succ hle⟩
        · rw [hopen, ← hw, hbytes, hclose, Value.bytes_array_append]
        · simp [Value.tree, JsonTree.builder]
    · cases hn
      obtain ⟨w, hw⟩ := exists_blanks rest
      rcases container_eq_ok_iff.1 hcontainer with
        ⟨hclose, htake⟩ | ⟨-, children, inside, hmembers, hclose, htake⟩
      · obtain ⟨rfl, -⟩ := Prod.mk.inj (Option.some.inj htake)
        replace hclose : skipBlanks rest = closeBrace :: c'.rest := hclose
        refine ⟨.emptyObject w, ?_, rfl, Nat.le_add_left ..⟩
        rw [hopen, ← hw, hclose, Value.bytes_emptyObject_append]
      · obtain ⟨rfl, -⟩ := Prod.mk.inj (Option.some.inj htake)
        obtain ⟨members, hbytes, rfl, hle⟩ := members_sound ih hmembers w
        replace hbytes : w.bytes ++ skipBlanks rest = members.bytes ++ inside.rest := hbytes
        refine ⟨.object members, ?_, ?_, Nat.succ_le_succ hle⟩
        · rw [hopen, ← hw, hbytes, hclose, Value.bytes_object_append]
        · simp [Value.tree, JsonTree.builder]
    · obtain ⟨s, hat, hscalar⟩ := atom_eq_ok_iff.1 hatom
      obtain ⟨rfl, -⟩ := Prod.mk.inj (Option.some.inj hscalar)
      obtain ⟨v, hv, htree, hnesting⟩ := exists_value_of_atomAt hat
      exact ⟨v, hv, htree, by omega⟩

end

end LinkedJson.Grammar
