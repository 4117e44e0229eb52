import LinkedJson.Proofs.Grammar.Soundness

/-!
# Which documents are read

A text is read as a whole exactly if it has a derivation whose containers nest no deeper than the
limit, and then the one tree that the derivation denotes is built (`Document.read_whole_iff`).
-/

namespace LinkedJson

namespace Reading

theorem document_whole_eq_ok_iff {σ ν κ : Type} {b : Builder σ ν κ} {limits : ReadLimits}
    {text : List UInt8} {state : σ} {node : ν} {c' : Cursor σ} :
    document b limits true text state = .ok (node, c') ↔
      ∃ c, value b limits limits.maxDepth.toNat ⟨skipBlanks text, state⟩ = .ok (node, c) ∧
        skipBlanks c.rest = [] ∧ c' = ⟨[], c.state⟩ := by
  unfold document
  rw [bind_eq_ok_iff]
  constructor
  · intro h
    obtain ⟨⟨n, c⟩, hvalue, h⟩ := h
    by_cases hnil : skipBlanks c.rest = []
    · simp only [Cursor.skipBlanks, hnil, List.isEmpty_nil, if_true] at h
      cases h
      exact ⟨c, hvalue, hnil, rfl⟩
    · simp [Cursor.skipBlanks, hnil] at h
  · intro h
    obtain ⟨c, hvalue, hnil, rfl⟩ := h
    refine ⟨(node, c), hvalue, ?_⟩
    simp [Cursor.skipBlanks, hnil]

end Reading

namespace ReadOptions

theorem tooLong_eq_none_iff {options : ReadOptions} {bytes : List UInt8} :
    options.tooLong bytes = none ↔ ∀ limit ∈ options.maxLength, (bytes.length : Int) ≤ limit := by
  unfold tooLong
  cases h : options.maxLength with
  | none => simp
  | some limit => simp

end ReadOptions

namespace Document

open Grammar Reading

theorem read_eq_ok_iff {options : ReadOptions} {maxNodes : Option Nat} {bytes : List UInt8}
    (hne : bytes ≠ []) (hlength : options.tooLong bytes = none) {d : Document} :
    Document.read options maxNodes bytes = .ok d ↔
      ∃ c, document (JsonTree.builder maxNodes) ⟨options.maxDepth, (content bytes).length⟩
          options.whole (content bytes) 0 = .ok (d.tree, c) ∧
        d.stop = (content bytes).length - c.rest.length := by
  have hempty : bytes.isEmpty = false := by
    cases bytes with
    | nil => exact absurd rfl hne
    | cons b bytes => rfl
  unfold Document.read Builder.read
  simp only [hempty, hlength, Bool.false_eq_true, if_false]
  cases document (JsonTree.builder maxNodes) ⟨options.maxDepth, (content bytes).length⟩
      options.whole (content bytes) 0 with
  | error e => simp [Except.map]
  | ok p =>
    obtain ⟨tree, c⟩ := p
    obtain ⟨tree', stop⟩ := d
    simp only [Except.map, Except.ok.injEq, Document.mk.injEq, Prod.mk.injEq]
    constructor
    · intro h
      obtain ⟨htree, hstop⟩ := h
      exact ⟨c, ⟨htree, rfl⟩, hstop.symm⟩
    · intro h
      obtain ⟨c', ⟨htree, rfl⟩, hstop⟩ := h
      exact ⟨htree, hstop.symm⟩

theorem read_of_text {options : ReadOptions} {bytes : List UInt8} (hwhole : options.whole = true)
    (hne : bytes ≠ []) (hlength : options.tooLong bytes = none) (t : Text)
    (ht : t.bytes = content bytes) (hdepth : t.value.nesting ≤ options.maxDepth.toNat) :
    Document.read options none bytes = .ok ⟨t.value.tree, (content bytes).length⟩ := by
  rw [read_eq_ok_iff hne hlength, hwhole]
  refine ⟨⟨[], 0 + t.value.tree.nodeCount⟩,
    document_whole_eq_ok_iff.2 ⟨⟨t.after.bytes, 0 + t.value.tree.nodeCount⟩, ?_, ?_, rfl⟩, rfl⟩
  · rw [← ht, Text.bytes, skipBlanks_value]
    refine t.value.read_eq _ _ _ _ hdepth ?_ ?_
    · simp only [List.length_append]
      omega
    · have := follows_append t.after follows_nil
      rwa [List.append_nil] at this
  · have := skipBlanks_append t.after []
    rwa [List.append_nil] at this

/-- The content of a text that is read as a whole has a derivation. -/
theorem exists_text_of_read {options : ReadOptions} {bytes : List UInt8} {d : Document}
    (hwhole : options.whole = true) (hne : bytes ≠ []) (hlength : options.tooLong bytes = none)
    (h : Document.read options none bytes = .ok d) :
    ∃ t : Text, t.bytes = content bytes ∧ t.value.nesting ≤ options.maxDepth.toNat ∧
      d = ⟨t.value.tree, (content bytes).length⟩ := by
  obtain ⟨c, hdocument, hstop⟩ := (read_eq_ok_iff hne hlength).1 h
  rw [hwhole] at hdocument
  obtain ⟨c', hvalue, hnil, rfl⟩ := document_whole_eq_ok_iff.1 hdocument
  obtain ⟨before, hbefore⟩ := exists_blanks (content bytes)
  obtain ⟨after, hafter⟩ := exists_blanks c'.rest
  obtain ⟨v, hv, htree, hdepth⟩ := value_sound _ _ hvalue
  replace hv : skipBlanks (content bytes) = v.bytes ++ c'.rest := hv
  rw [hnil, List.append_nil] at hafter
  refine ⟨⟨before, v, after⟩, ?_, hdepth, ?_⟩
  · rw [Text.bytes, hafter, ← hv, hbefore]
  · cases d
    cases htree
    cases hstop
    rfl

/-- **The reader accepts exactly the grammar.** A text is read as a whole if and only if it has a
derivation within the nesting limit; the derivation is the only one, and its tree is what is built.
-/
theorem read_whole_iff (options : ReadOptions) (bytes : List UInt8) (d : Document)
    (hwhole : options.whole = true) (hne : bytes ≠ [])
    (hlength : ∀ limit ∈ options.maxLength, (bytes.length : Int) ≤ limit) :
    (Document.read options none bytes = .ok d ↔
      ∃ t : Text, t.bytes = content bytes ∧ t.value.nesting ≤ options.maxDepth.toNat ∧
        d = ⟨t.value.tree, (content bytes).length⟩) ∧
    ∀ t u : Text, t.bytes = content bytes → u.bytes = content bytes → t = u := by
  have hlimit := ReadOptions.tooLong_eq_none_iff.2 hlength
  refine ⟨⟨exists_text_of_read hwhole hne hlimit, ?_⟩, ?_⟩
  · intro h
    obtain ⟨t, ht, hdepth, rfl⟩ := h
    exact read_of_text hwhole hne hlimit t ht hdepth
  · intro t u ht hu
    exact Text.bytes_injective (ht.trans hu.symm)

/-- Both sides are met by a text with blanks, a trailing zero byte and one level of nesting. -/
theorem read_whole_iff_blanks_and_brackets :
    Document.read ⟨true, 1, some 6⟩ none [0x20, 0x5b, 0x09, 0x5d, 0x00, 0x78] =
      .ok ⟨.array .none [], 4⟩ :=
  (read_whole_iff ⟨true, 1, some 6⟩ [0x20, 0x5b, 0x09, 0x5d, 0x00, 0x78] _ rfl (by decide)
    (by decide)).1.2
    ⟨⟨⟨[0x20], List.all_eq_true.1 rfl⟩, .emptyArray ⟨[0x09], List.all_eq_true.1 rfl⟩, .none⟩, rfl,
      by decide, rfl⟩

end Document

end LinkedJson
