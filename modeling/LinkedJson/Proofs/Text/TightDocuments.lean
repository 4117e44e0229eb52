import LinkedJson.Proofs.Text.Tightening
import LinkedJson.Proofs.Writing.ReadTrees

/-!
# Documents without blanks

A derivation stays one when spaces, tabs, carriage returns and line feeds are taken out of its runs
of blanks: it derives the text without them and denotes the same tree. No two tokens run together,
since between two of them there always stands a comma, a colon or a bracket. So a document with any
blanks and comments put in reads, once they are stripped, as the document itself
(`stripTrivia_padded`).
-/

namespace LinkedJson

open Ascii Trivia

namespace Grammar

/-! ## Tokens -/

/-- Blanks other than spaces, tabs, carriage returns and line feeds. -/
def Blanks.tight (w : Blanks) : Blanks :=
  ⟨w.bytes.filter fun b => ¬ IsBlankCode b.toNat,
    fun b hb => w.isBlank b (List.mem_filter.1 hb).1⟩

theorem Blanks.tightens (w : Blanks) : Tightens w.bytes w.tight.bytes := by
  refine tightens_filter fun b hb => ?_
  have hblank := w.isBlank b hb
  have hle := (isBlank_iff.1 hblank).2
  refine ⟨?_, ?_, by omega⟩
  · rintro rfl
    exact absurd hblank (by decide)
  · rintro rfl
    exact absurd hblank (by decide)

theorem StringToken.tightens (token : StringToken) : Tightens token.literal token.literal := by
  obtain ⟨inner, n, -, hliteral, hlength, -, -, hend⟩ :=
    StringLiteral.read_eq_ok_iff.1 token.read_literal
  have hlt := (StringLiteral.bodyLength?_bounds hlength).2
  have hle := List.drop_eq_nil_iff.1 hend.symm
  rw [hliteral]
  exact tightens_of_bodyLength? hlength (by omega)

theorem NumberToken.tightens (token : NumberToken) : Tightens token.literal token.literal := by
  obtain ⟨p, hp, -⟩ := NumberLiteral.exists_parts_of_read token.read_literal
  rw [List.append_nil] at hp
  rw [hp]
  exact tightens_of_solid (solidText_parts p)

/-! ## Derivations -/

mutual

/-- The derivation with each run of blanks made tight. -/
def Value.tight : Value → Value
  | .null => .null
  | .bool value => .bool value
  | .string token => .string token
  | .number token => .number token
  | .emptyArray inside => .emptyArray inside.tight
  | .array items => .array items.tight
  | .emptyObject inside => .emptyObject inside.tight
  | .object members => .object members.tight

def Items.tight : Items → Items
  | .last before value after => .last before.tight value.tight after.tight
  | .more before value after rest => .more before.tight value.tight after.tight rest.tight

def Members.tight : Members → Members
  | .last before name beforeColon afterColon value after =>
    .last before.tight name beforeColon.tight afterColon.tight value.tight after.tight
  | .more before name beforeColon afterColon value after rest =>
    .more before.tight name beforeColon.tight afterColon.tight value.tight after.tight rest.tight

end

def Text.tight (t : Text) : Text :=
  ⟨t.before.tight, t.value.tight, t.after.tight⟩

mutual

theorem Value.tree_tight : ∀ v : Value, v.tight.tree = v.tree
  | .null | .bool _ | .string _ | .number _ | .emptyArray _ | .emptyObject _ => rfl
  | .array items => by rw [Value.tight, Value.tree, Value.tree, items.trees_tight]
  | .object members => by rw [Value.tight, Value.tree, Value.tree, members.trees_tight]

theorem Items.trees_tight : ∀ items : Items, items.tight.trees = items.trees
  | .last _ value _ => by rw [Items.tight, Items.trees, Items.trees, value.tree_tight]
  | .more _ value _ rest => by
    rw [Items.tight, Items.trees, Items.trees, value.tree_tight, rest.trees_tight]

theorem Members.trees_tight : ∀ members : Members, members.tight.trees = members.trees
  | .last _ _ _ _ value _ => by rw [Members.tight, Members.trees, Members.trees, value.tree_tight]
  | .more _ _ _ _ value _ rest => by
    rw [Members.tight, Members.trees, Members.trees, value.tree_tight, rest.trees_tight]

end

mutual

theorem Value.nesting_tight : ∀ v : Value, v.tight.nesting = v.nesting
  | .null | .bool _ | .string _ | .number _ | .emptyArray _ | .emptyObject _ => rfl
  | .array items => by rw [Value.tight, Value.nesting, Value.nesting, items.nesting_tight]
  | .object members => by rw [Value.tight, Value.nesting, Value.nesting, members.nesting_tight]

theorem Items.nesting_tight : ∀ items : Items, items.tight.nesting = items.nesting
  | .last _ value _ => by rw [Items.tight, Items.nesting, Items.nesting, value.nesting_tight]
  | .more _ value _ rest => by
    rw [Items.tight, Items.nesting, Items.nesting, value.nesting_tight, rest.nesting_tight]

theorem Members.nesting_tight : ∀ members : Members, members.tight.nesting = members.nesting
  | .last _ _ _ _ value _ => by
    rw [Members.tight, Members.nesting, Members.nesting, value.nesting_tight]
  | .more _ _ _ _ value _ rest => by
    rw [Members.tight, Members.nesting, Members.nesting, value.nesting_tight, rest.nesting_tight]

end

mutual

/-- The tight derivation derives the text without the blanks. -/
theorem Value.tightens : ∀ v : Value, Tightens v.bytes v.tight.bytes
  | .null => tightens_word "null" (by decide)
  | .bool true => tightens_word "true" (by decide)
  | .bool false => tightens_word "false" (by decide)
  | .string token => token.tightens
  | .number token => token.tightens
  | .emptyArray inside =>
    .mark (by decide) (inside.tightens.append (tightens_of_solid (by decide)))
  | .array items =>
    .mark (by decide) (items.tightens.append (tightens_of_solid (by decide)))
  | .emptyObject inside =>
    .mark (by decide) (inside.tightens.append (tightens_of_solid (by decide)))
  | .object members =>
    .mark (by decide) (members.tightens.append (tightens_of_solid (by decide)))

theorem Items.tightens : ∀ items : Items, Tightens items.bytes items.tight.bytes
  | .last before value after =>
    before.tightens.append (value.tightens.append after.tightens)
  | .more before value after rest =>
    before.tightens.append (value.tightens.append (after.tightens.append
      (.mark (by decide) rest.tightens)))

theorem Members.tightens : ∀ members : Members, Tightens members.bytes members.tight.bytes
  | .last before name beforeColon afterColon value after =>
    before.tightens.append (name.tightens.append (beforeColon.tightens.append
      (.mark (by decide) (afterColon.tightens.append
        (value.tightens.append after.tightens)))))
  | .more before name beforeColon afterColon value after rest =>
    before.tightens.append (name.tightens.append (beforeColon.tightens.append
      (.mark (by decide) (afterColon.tightens.append
        (value.tightens.append (after.tightens.append
          (.mark (by decide) rest.tightens)))))))

end

theorem Text.tightens (t : Text) : Tightens t.bytes t.tight.bytes :=
  t.before.tightens.append (t.value.tightens.append t.after.tightens)

end Grammar

/-! ## Readings -/

namespace Grammar

/-- What is read as a whole has a derivation, which without its blanks derives what is left. -/
theorem exists_tightens_of_read {options : ReadOptions} {bytes : List UInt8} {d : Document}
    (hwhole : options.whole = true) (h : Document.read options none bytes = .ok d) :
    ∃ t : Text, Tightens (content bytes) t.tight.bytes ∧
      t.value.nesting ≤ options.maxDepth.toNat ∧ d.tree = t.value.tree := by
  obtain ⟨hne, hlimit⟩ := Document.ne_nil_of_read h
  obtain ⟨t, ht, hdepth, rfl⟩ := Document.exists_text_of_read hwhole hne hlimit h
  exact ⟨t, ht ▸ t.tightens, hdepth, rfl⟩

end Grammar

namespace Document

open Grammar

/-- What is read as a whole is read without its blanks as the same tree. -/
theorem read_tight {options : ReadOptions} {bytes bytes' : List UInt8} {d : Document}
    (hwhole : options.whole = true) (h : Document.read options none bytes = .ok d)
    (hlength : bytes'.length ≤ bytes.length)
    (htight : content bytes' = tight UInt8.toNat .outside (content bytes)) :
    Document.read options none bytes' = .ok ⟨d.tree, (content bytes').length⟩ := by
  obtain ⟨-, hlimit⟩ := ne_nil_of_read h
  obtain ⟨t, ht, hdepth, htree⟩ := exists_tightens_of_read hwhole h
  rw [ht.tight_eq] at htight
  have hne : bytes' ≠ [] := by
    rintro rfl
    obtain ⟨b, text, hcons, -⟩ := t.tight.value.exists_cons
    rw [Text.bytes, hcons] at htight
    exact absurd htight (by simp [content])
  have hlimit' : options.tooLong bytes' = none := by
    refine ReadOptions.tooLong_eq_none_iff.2 fun limit hmem => ?_
    have := ReadOptions.tooLong_eq_none_iff.1 hlimit limit hmem
    omega
  have hdepth' : t.tight.value.nesting ≤ options.maxDepth.toNat := by
    rwa [Text.tight, Value.nesting_tight]
  rw [read_of_text hwhole hne hlimit' t.tight htight.symm hdepth', Text.tight, Value.tree_tight,
    htree]

end Document

/-- **Stripping undoes commenting and spacing.** Let blanks and comments be put into a text outside
of its string literals, where it has no slash. Stripping gives the text without its own blanks, with
or without what was put in; and if the text is read as a whole, so is what stripping gives, as the
same tree. -/
theorem stripTrivia_padded {s t : WideString} (hslashes : SlashesQuoted s) (h : Padded s t) :
    stripTrivia t = stripTrivia s ∧ stripTrivia s = withoutBlanks s ∧
      ∀ (options : ReadOptions) (d : Document), options.whole = true →
        Document.read options none s.encode = .ok d →
        Document.read options none (stripTrivia t).encode =
          .ok ⟨d.tree, (content (stripTrivia t).encode).length⟩ := by
  have hpadded := stripTrivia_of_padded h hslashes
  have hself := stripTrivia_of_padded (padded_refl s) hslashes
  refine ⟨hpadded.trans hself.symm, hself, fun options d hwhole hread => ?_⟩
  obtain ⟨text, htext, -⟩ := Grammar.exists_tightens_of_read hwhole hread
  rw [hpadded]
  exact Document.read_tight hwhole hread (length_encode_withoutBlanks_le s)
    (content_encode_withoutBlanks htext.lt)

/-- A block comment with a quote in it, and a line comment that begins like a block comment; the
string looks like a line comment. -/
theorem stripTrivia_padded_comments :
    stripTrivia "/*\"*/[///*\n \"//\"]" = stripTrivia "[ \"//\"]" ∧
      stripTrivia "[ \"//\"]" = "[\"//\"]" ∧
      Document.read ⟨true, 1, some 8⟩ none (stripTrivia "/*\"*/[///*\n \"//\"]").encode =
        .ok ⟨.array .none [.scalar .none (.string "//")], 6⟩ := by
  have hslashes : SlashesQuoted "[ \"//\"]" :=
    ⟨by decide, by decide, by decide, by decide, by decide, by decide, by decide, trivial⟩
  have hunits : WideString.units "/*\"*/[///*\n \"//\"]" =
      0x2f :: 0x2a :: ([0x22] ++ [0x2a, 0x2f]) ++
        0x5b :: (0x2f :: 0x2f :: ([0x2f, 0x2a] ++ [0x0a]) ++ WideString.units " \"//\"]") := by
    decide
  have hpadded : Padded "[ \"//\"]" "/*\"*/[///*\n \"//\"]" := by
    rw [Padded, hunits]
    exact .pad (.block [0x22] (by decide))
      (.keep (.pad (.line [0x2f, 0x2a] (by decide)) (.refl _ _)))
  have hwithout : withoutBlanks "[ \"//\"]" = "[\"//\"]" := by decide
  have hdocument : Document.read ⟨true, 1, some 8⟩ none (WideString.encode "[ \"//\"]") =
      .ok ⟨.array .none [.scalar .none (.string "//")], 7⟩ :=
    Document.read_of_text rfl (by decide) (by decide)
      ⟨.none, .array (.last ⟨[0x20], List.all_eq_true.1 rfl⟩
        (.string (.ofString "//" (by decide))) .none), .none⟩ (by decide) (by decide)
  obtain ⟨hsame, hself, hread⟩ := stripTrivia_padded hslashes hpadded
  rw [hwithout] at hself
  refine ⟨hsame, hself, ?_⟩
  rw [hread _ _ rfl hdocument, hsame, hself]
  rfl

end LinkedJson
