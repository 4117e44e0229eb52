import LinkedJson.Proofs.Grammar.Acceptance
import LinkedJson.Proofs.Literal.StringLanguage
import LinkedJson.Proofs.Store.Budget
import LinkedJson.Proofs.Store.Documents

/-!
# What stands before a fault can be completed

The reader stops at the first byte that no document goes on with: what stands before the fault is
the front of a document that is read. The exceptions are faults inside of a string, which are found
at a place of their own.

What is missing is told by where the reader stands. In the place of a value it is `null`, in the
place of a member a name with a colon and `null`, behind a name a colon and `null`, behind an item
the closing bracket. `Viable` says of one reader that what it has passed over is a word of a
language or the front of one. Each reader has one lemma, for every builder, and the containers that
are open at a fault are closed one by one on the way out (`Viable.bind`).
-/

namespace LinkedJson

open Ascii Grammar

/-! ## Faults inside of strings -/

/-- The code of a fault that is found inside of a string literal. -/
def FaultCode.InsideString (code : FaultCode) : Prop :=
  code = .unterminatedString ∨ code = .invalidEscape ∨ code = .invalidUnicodeEscape

namespace StringLiteral

theorem insideString_of_item {body : List UInt8} {fault : ReadFault}
    (h : item body = .error fault) : fault.code.InsideString := by
  unfold item at h
  split at h
  · cases h
    exact .inl rfl
  · split at h
    · cases h
    · split at h
      · cases h
        exact .inl rfl
      · split at h
        · cases h
        · split at h
          · cases h
            exact .inr (.inl rfl)
          · split at h
            · rename_i hpoint
              cases h
              exact .inr (.inr (code_of_codePoint hpoint))
            · cases h

theorem insideString_of_unescape {body out rest : List UInt8} {fault : ReadFault}
    (h : unescape body out = .error (fault, rest)) : fault.code.InsideString := by
  fun_induction unescape body out with
  | case1 body out hempty => cases h
  | case2 body out hempty fault hitem =>
    cases h
    exact insideString_of_item hitem
  | case3 body out hempty written rest hitem hlt ih => exact ih h

/-- A literal is at fault at its first byte, or inside. -/
theorem eq_or_insideString_of_read {text rest : List UInt8} {fault : ReadFault}
    (h : read text = .error (fault, rest)) : rest = text ∨ fault.code.InsideString := by
  unfold read at h
  split at h
  · cases h
    exact .inl rfl
  · split at h
    · cases h
      exact .inl rfl
    · split at h
      · cases h
        exact .inr (.inl rfl)
      · split at h
        · rename_i hbody
          cases h
          rw [bodyBytes_eq_unescape] at hbody
          exact .inr (insideString_of_unescape hbody)
        · split at h
          · cases h
            exact .inl rfl
          · cases h

end StringLiteral

/-! ## Languages -/

namespace Grammar

/-- A value inside of which at most `levels` containers nest. -/
def IsValue (levels : Nat) (bytes : List UInt8) : Prop :=
  ∃ v : Value, v.bytes = bytes ∧ v.nesting ≤ levels

/-- A name, a colon and such a value. -/
def IsMember (levels : Nat) (bytes : List UInt8) : Prop :=
  ∃ (name : StringToken) (beforeColon afterColon : Blanks) (v : Value),
    name.literal ++ (beforeColon.bytes ++ colon :: (afterColon.bytes ++ v.bytes)) = bytes ∧
      v.nesting ≤ levels

/-- Such a value with blanks around it. -/
def IsText (levels : Nat) (bytes : List UInt8) : Prop :=
  ∃ t : Text, t.bytes = bytes ∧ t.value.nesting ≤ levels

/-- Words with commas between them, and blanks around them but for the first one. -/
inductive Separated (P : List UInt8 → Prop) : List UInt8 → Prop
  | last {word : List UInt8} (h : P word) (after : Blanks) : Separated P (word ++ after.bytes)
  | more {word rest : List UInt8} (h : P word) (after before : Blanks) (hrest : Separated P rest) :
    Separated P (word ++ (after.bytes ++ comma :: (before.bytes ++ rest)))

variable {levels : Nat} {bytes : List UInt8}

theorem Separated.exists_items (h : Separated (IsValue levels) bytes) (before : Blanks) :
    ∃ items : Items, items.bytes = before.bytes ++ bytes ∧ items.nesting ≤ levels := by
  induction h generalizing before with
  | last h after =>
    obtain ⟨v, rfl, hnesting⟩ := h
    exact ⟨.last before v after, rfl, hnesting⟩
  | more h after before' hrest ih =>
    obtain ⟨v, rfl, hnesting⟩ := h
    obtain ⟨items, hitems, hle⟩ := ih before'
    exact ⟨.more before v after items, by rw [Items.bytes, hitems], Nat.max_le.2 ⟨hnesting, hle⟩⟩

theorem Separated.exists_members (h : Separated (IsMember levels) bytes) (before : Blanks) :
    ∃ members : Members, members.bytes = before.bytes ++ bytes ∧ members.nesting ≤ levels := by
  induction h generalizing before with
  | last h after =>
    obtain ⟨name, beforeColon, afterColon, v, rfl, hnesting⟩ := h
    exact ⟨.last before name beforeColon afterColon v after, by simp [Members.bytes], hnesting⟩
  | more h after before' hrest ih =>
    obtain ⟨name, beforeColon, afterColon, v, rfl, hnesting⟩ := h
    obtain ⟨members, hmembers, hle⟩ := ih before'
    exact ⟨.more before name beforeColon afterColon v after members,
      by simp [Members.bytes, hmembers], Nat.max_le.2 ⟨hnesting, hle⟩⟩

theorem isValue_null (levels : Nat) : IsValue levels (Utf8.encode "null") :=
  ⟨.null, rfl, Nat.zero_le levels⟩

theorem isValue_emptyArray (levels : Nat) (inside : Blanks) :
    IsValue (levels + 1) (openBracket :: inside.bytes ++ [closeBracket]) :=
  ⟨.emptyArray inside, rfl, Nat.le_add_left 1 levels⟩

theorem isValue_array (h : Separated (IsValue levels) bytes) (before : Blanks) :
    IsValue (levels + 1) (openBracket :: before.bytes ++ (bytes ++ [closeBracket])) := by
  obtain ⟨items, hitems, hle⟩ := h.exists_items before
  exact ⟨.array items, by simp [Value.bytes, hitems], Nat.succ_le_succ hle⟩

theorem isValue_emptyObject (levels : Nat) (inside : Blanks) :
    IsValue (levels + 1) (openBrace :: inside.bytes ++ [closeBrace]) :=
  ⟨.emptyObject inside, rfl, Nat.le_add_left 1 levels⟩

theorem isValue_object (h : Separated (IsMember levels) bytes) (before : Blanks) :
    IsValue (levels + 1) (openBrace :: before.bytes ++ (bytes ++ [closeBrace])) := by
  obtain ⟨members, hmembers, hle⟩ := h.exists_members before
  exact ⟨.object members, by simp [Value.bytes, hmembers], Nat.succ_le_succ hle⟩

end Grammar

namespace Reading

/-! ## Readings and fronts of words -/

/-- A reading takes a word of a language off a text, or stops where a word could go on, or inside of
a string. -/
inductive Viable {σ α : Type} (P : List UInt8 → Prop) (text : List UInt8) :
    Reading σ (α × Cursor σ) → Prop
  | read {word : List UInt8} {a : α} {c : Cursor σ} (h : P word) (htext : text = word ++ c.rest) :
    Viable P text (.ok (a, c))
  | failed (front back : List UInt8) {fault : ReadFault} {c : Cursor σ} (h : P (front ++ back))
    (hback : 0 ∉ back) (htext : text = front ++ c.rest) : Viable P text (.error (fault, c))
  | insideString {fault : ReadFault} {c : Cursor σ} (h : fault.code.InsideString) :
    Viable P text (.error (fault, c))

variable {σ ν κ α β : Type} {b : Builder σ ν κ} {P Q : List UInt8 → Prop} {text : List UInt8}
  {limits : ReadLimits} {levels : Nat}

/-- Behind a front that all words of a language can follow. -/
theorem Viable.behind {reading : Reading σ (α × Cursor σ)} (h : Viable P text reading)
    {front : List UInt8} (hfront : ∀ word, P word → Q (front ++ word)) :
    Viable Q (front ++ text) reading := by
  cases h with
  | read h htext => exact .read (hfront _ h) (by rw [htext, List.append_assoc])
  | failed front' back h hback htext =>
    refine .failed (front ++ front') back ?_ hback (by rw [htext, List.append_assoc])
    rw [List.append_assoc]
    exact hfront _ h
  | insideString h => exact .insideString h

/-- One reading after another, behind a front. A fault in the first one leaves a back to be
completed. -/
theorem Viable.bind {reading : Reading σ (α × Cursor σ)}
    {next : α × Cursor σ → Reading σ (β × Cursor σ)} (h : Viable P text reading)
    {front : List UInt8} (back : List UInt8) (hback : 0 ∉ back)
    (hfailed : ∀ word, P word → Q (front ++ (word ++ back)))
    (hread : ∀ a c word, P word → text = word ++ c.rest → Viable Q (front ++ text) (next (a, c))) :
    Viable Q (front ++ text) (reading >>= next) := by
  cases h with
  | @read word a c h htext => exact hread a c word h htext
  | failed front' back' h hback' htext =>
    refine .failed (front ++ front') (back' ++ back) ?_ ?_ (by rw [htext, List.append_assoc])
    · have hwhole := hfailed _ h
      rwa [List.append_assoc, ← List.append_assoc front']
    · rw [List.mem_append, not_or]
      exact ⟨hback', hback⟩
  | insideString h => exact .insideString h

/-- A fault at the first byte of a word. -/
theorem viable_here {word : List UInt8} (h : P word) (hzero : 0 ∉ word) {fault : ReadFault}
    {c : Cursor σ} (hrest : c.rest = text) :
    Viable P text (.error (fault, c) : Reading σ (α × Cursor σ)) :=
  .failed [] word h hzero hrest.symm

theorem viable_null {fault : ReadFault} {c : Cursor σ} (hrest : c.rest = text) :
    Viable (IsValue levels) text (.error (fault, c) : Reading σ (α × Cursor σ)) :=
  viable_here (isValue_null levels) (by decide) hrest

/-! ## Scalars -/

theorem viable_scalar {v : Scalar} {c : Cursor σ} (h : AtomAt text v c.rest) :
    Viable (IsValue levels) text (scalar b text v c) := by
  obtain ⟨value, htext, -, hnesting⟩ := exists_value_of_atomAt h
  unfold scalar
  split
  · exact viable_null rfl
  · exact .read ⟨value, rfl, hnesting ▸ Nat.zero_le levels⟩ htext

/-- A string where any word of the language could stand, and what is read behind it. -/
theorem viable_string {state : σ} {next : String × Cursor σ → Reading σ (α × Cursor σ)}
    {word : List UInt8} (h : P word) (hzero : 0 ∉ word)
    (hread : ∀ s rest, StringLiteral.read text = .ok (s, rest) →
      Viable P text (next (s, ⟨rest, state⟩))) :
    Viable P text (ofScan state (StringLiteral.read text) >>= next) := by
  cases hscan : StringLiteral.read text with
  | ok p => exact hread p.1 p.2 hscan
  | error e =>
    rcases StringLiteral.eq_or_insideString_of_read hscan with hrest | hinside
    · exact viable_here h hzero hrest
    · exact .insideString hinside

theorem viable_atom (c : Cursor σ) : Viable (IsValue levels) c.rest (atom b c) := by
  obtain ⟨text, state⟩ := c
  unfold atom
  simp only
  split
  · rename_i hword
    rw [afterWord?_eq_some_iff.1 hword]
    exact viable_scalar (.null _)
  · rename_i hword _
    rw [afterWord?_eq_some_iff.1 hword]
    exact viable_scalar (.false _)
  · rename_i hword _ _
    rw [afterWord?_eq_some_iff.1 hword]
    exact viable_scalar (.true _)
  · split
    · exact viable_null rfl
    · rename_i first tail _ _ _
      split
      · exact viable_string (isValue_null levels) (by decide) fun s rest hread =>
          viable_scalar (.string hread)
      · split
        · rename_i hfirst
          cases hread : NumberLiteral.read (first :: tail) with
          | ok p => exact viable_scalar (.number hfirst hread)
          | error e =>
            unfold NumberLiteral.read at hread
            split at hread
            · cases hread
              exact viable_null rfl
            · cases hread
        · exact viable_null rfl

/-! ## Containers -/

theorem viable_separated {item : Reader σ ν} (hitem : ∀ c, Viable P c.rest (item c)) (commas : Nat)
    (children : κ) (c : Cursor σ) :
    Viable (Separated P) c.rest (separated b item commas children c) := by
  have hstep := hitem c
  cases hread : item c with
  | error e =>
    rw [separated_of_error hread]
    rw [hread] at hstep
    cases hstep with
    | failed front back h hback htext =>
      have hlast := Separated.last h .none
      rw [Blanks.none, List.append_nil] at hlast
      exact .failed front back hlast hback htext
    | insideString h => exact .insideString h
  | ok p =>
    obtain ⟨node, c'⟩ := p
    rw [hread] at hstep
    cases hstep with
    | @read word _ _ h htext =>
      obtain ⟨after, hafter⟩ := exists_blanks c'.rest
      have hlast : c.rest = word ++ after.bytes ++ skipBlanks c'.rest := by
        rw [htext, List.append_assoc, hafter]
      rw [separated_of_ok hread]
      cases commas with
      | zero => exact .read (.last h after) hlast
      | succ commas =>
        cases hcomma : afterByte? comma (skipBlanks c'.rest) with
        | none => exact .read (.last h after) hlast
        | some rest =>
          obtain ⟨before, hbefore⟩ := exists_blanks rest
          have hmore := viable_separated hitem commas (b.push children node c'.state).1
            ⟨skipBlanks rest, (b.push children node c'.state).2⟩
          have hfront : c.rest =
              word ++ (after.bytes ++ comma :: before.bytes) ++ skipBlanks rest := by
            rw [hlast, afterByte?_eq_some_iff.1 hcomma]
            nth_rewrite 1 [← hbefore]
            simp
          rw [hfront]
          refine hmore.behind fun word' h' => ?_
          have hwhole := Separated.more h after before h'
          simpa using hwhole

/-- The end of a container, behind a front that its closing bracket completes. -/
theorem viable_closing {close : UInt8} {unterminated : ReadFault}
    {take : κ → σ → Option (ν × σ)} {start : List UInt8} {children : κ} {c : Cursor σ}
    (hclose : close ≠ 0) (front : List UInt8) (h : IsValue levels (front ++ [close]))
    (hstart : start = front ++ c.rest) :
    Viable (IsValue levels) start (closing b close unterminated take start children c) := by
  unfold closing
  split
  · exact .failed front [close] h (by simpa using hclose.symm) hstart
  · rename_i rest hrest
    split
    · exact viable_null rfl
    · refine .read h ?_
      rw [hstart, afterByte?_eq_some_iff.1 hrest, List.append_assoc, List.singleton_append]

theorem viable_container {first close : UInt8} {unterminated : ReadFault}
    {take : κ → σ → Option (ν × σ)} {item : Reader σ ν} (hitem : ∀ c, Viable P c.rest (item c))
    (hclose : close ≠ 0)
    (hempty : ∀ inside : Blanks, IsValue levels (first :: inside.bytes ++ [close]))
    (hfull : ∀ (before : Blanks) (bytes : List UInt8), Separated P bytes →
      IsValue levels (first :: before.bytes ++ (bytes ++ [close]))) (c : Cursor σ) :
    Viable (IsValue levels) (first :: c.rest)
      (container b limits close unterminated take item (first :: c.rest) c) := by
  obtain ⟨before, hbefore⟩ := exists_blanks c.rest
  have hstart : first :: c.rest = first :: before.bytes ++ skipBlanks c.rest := by
    rw [List.cons_append, hbefore]
  by_cases hclosed : (afterByte? close (skipBlanks c.rest)).isSome = true
  · rw [container_of_closed hclosed]
    exact viable_closing hclose _ (hempty before) hstart
  · rw [container_of_open hclosed]
    have hitems := viable_separated (b := b) hitem limits.maxCommas b.childless c.skipBlanks
    generalize first :: c.rest = start at hstart ⊢
    rw [hstart]
    refine hitems.bind [close] (by simpa using hclose.symm) (hfull before) ?_
    intro children c' word hword htext
    refine viable_closing hclose (first :: before.bytes ++ word) ?_ ?_
    · rw [List.append_assoc]
      exact hfull before word hword
    · rw [htext, List.append_assoc]

theorem viable_member {inner : Reader σ ν} (hinner : ∀ c, Viable (IsValue levels) c.rest (inner c))
    (c : Cursor σ) : Viable (IsMember levels) c.rest (member b inner c) := by
  have hnull : IsMember levels (Utf8.encode "\"\":null") :=
    ⟨⟨_, "", @StringLiteral.read_literal "" (by decide)⟩, .none, .none, .null, by decide,
      Nat.zero_le levels⟩
  unfold member
  split
  · exact viable_here hnull (by decide) rfl
  · refine viable_string hnull (by decide) fun name rest hread => ?_
    obtain ⟨literal, htext, hliteral⟩ := StringLiteral.eq_append_of_read hread
    obtain ⟨beforeColon, hbefore⟩ := exists_blanks rest
    simp only [Cursor.skipBlanks]
    split
    · refine .failed (literal ++ beforeColon.bytes) (Utf8.encode ":null") ?_ (by decide) ?_
      · exact ⟨⟨literal, name, hliteral⟩, beforeColon, .none, .null,
          (List.append_assoc ..).symm, Nat.zero_le levels⟩
      · rw [htext, List.append_assoc, hbefore]
    · rename_i rest' hcolon
      obtain ⟨afterColon, hafter⟩ := exists_blanks rest'
      have hfront : c.rest =
          literal ++ (beforeColon.bytes ++ colon :: afterColon.bytes) ++ skipBlanks rest' := by
        rw [htext, ← hbefore, afterByte?_eq_some_iff.1 hcolon]
        nth_rewrite 1 [← hafter]
        simp
      have hmember : ∀ word, IsValue levels word → IsMember levels
          (literal ++ (beforeColon.bytes ++ colon :: afterColon.bytes) ++ word) := by
        rintro word ⟨v, rfl, hnesting⟩
        exact ⟨⟨literal, name, hliteral⟩, beforeColon, afterColon, v, by simp, hnesting⟩
      rw [hfront]
      refine (hinner ⟨skipBlanks rest', c.state⟩).bind [] (by simp) ?_ ?_
      · intro word hword
        rw [List.append_nil]
        exact hmember word hword
      · intro node c' word hword htext'
        refine .read (hmember word hword) ?_
        replace htext' : skipBlanks rest' = word ++ c'.rest := htext'
        rw [htext', List.append_assoc _ word]

/-! ## Values and documents -/

theorem viable_value (levels : Nat) (c : Cursor σ) :
    Viable (IsValue levels) c.rest (value b limits levels c) := by
  induction levels generalizing c with
  | zero =>
    simp only [value, valueWith]
    split
    · exact viable_atom c
    · exact viable_null rfl
    · rename_i hinner
      cases hinner
    · rename_i hinner
      cases hinner
  | succ levels ih =>
    obtain ⟨text, state⟩ := c
    simp only [value, valueWith]
    split
    · exact viable_atom ⟨text, state⟩
    · exact viable_null rfl
    · rename_i rest inner hopen hinner
      cases hinner
      rw [afterByte?_eq_some_iff.1 hopen]
      exact viable_container ih (by decide) (isValue_emptyArray levels)
        (fun before bytes h => isValue_array h before) ⟨rest, state⟩
    · rename_i rest inner _ hopen hinner
      cases hinner
      rw [afterByte?_eq_some_iff.1 hopen]
      exact viable_container (viable_member ih) (by decide) (isValue_emptyObject levels)
        (fun before bytes h => isValue_object h before) ⟨rest, state⟩

theorem viable_document (limits : ReadLimits) (whole : Bool) (text : List UInt8) (state : σ) :
    Viable (IsText limits.maxDepth.toNat) text (document b limits whole text state) := by
  obtain ⟨before, hbefore⟩ := exists_blanks text
  have htext : text = before.bytes ++ skipBlanks text := hbefore.symm
  have hvalue : ∀ word, IsValue limits.maxDepth.toNat word → ∀ after : Blanks,
      IsText limits.maxDepth.toNat (before.bytes ++ (word ++ after.bytes)) := by
    rintro word ⟨v, rfl, hnesting⟩ after
    exact ⟨⟨before, v, after⟩, rfl, hnesting⟩
  unfold document
  nth_rewrite 1 [htext]
  refine (viable_value _ (Cursor.skipBlanks ⟨text, state⟩)).bind [] (by simp)
    (fun word hword => hvalue word hword .none) ?_
  intro node c word hword hrest
  obtain ⟨after, hafter⟩ := exists_blanks c.rest
  replace hrest : skipBlanks text = word ++ c.rest := hrest
  have hblanks : before.bytes ++ skipBlanks text =
      before.bytes ++ (word ++ after.bytes) ++ skipBlanks c.rest := by
    rw [hrest, List.append_assoc, List.append_assoc, hafter]
  dsimp only
  split
  · split
    · exact .read (hvalue word hword after) hblanks
    · refine .failed _ [] ?_ (by simp) hblanks
      rw [List.append_nil]
      exact hvalue word hword after
  · refine .read (hvalue word hword .none) ?_
    show before.bytes ++ skipBlanks text = _
    rw [hrest, Blanks.none, List.append_nil, List.append_assoc]

end Reading

/-! ## Whole documents -/

/-- The codes of the faults that mark the end of what can be completed. -/
def FaultCode.viable : List FaultCode :=
  [.malformedValue, .malformedNumber, .missingColon, .unterminatedContainer, .trailingGarbage,
    .nestingTooDeep, .allocationFailure]

theorem FaultCode.InsideString.not_viable {code : FaultCode} (h : code.InsideString) :
    code ∉ FaultCode.viable := by
  rcases h with rfl | rfl | rfl <;> decide

theorem ReadOptions.code_of_tooLong {options : ReadOptions} {bytes : List UInt8} {fault : ReadFault}
    (h : options.tooLong bytes = some fault) : fault.code = .inputTooLarge := by
  unfold tooLong at h
  split at h
  · cases h
  · split at h
    · cases h
      rfl
    · cases h

/-- What stands before a fault is the front of a text that nests no deeper than the limit. -/
theorem Builder.exists_text_of_read {σ ν κ : Type} (b : Builder σ ν κ) {options : ReadOptions}
    {bytes : List UInt8} {s : σ} {e : ReadFailure} (h : (b.read options bytes s).1 = .error e)
    (hcode : e.fault.code ∈ FaultCode.viable) :
    ∃ k : Nat, k ≤ (content bytes).length ∧ e.position = .ofOffset bytes k ∧
      ∃ back, 0 ∉ back ∧ IsText options.maxDepth.toNat (bytes.take k ++ back) := by
  unfold Builder.read at h
  split at h
  · cases h
    exact absurd hcode (show FaultCode.noInput ∉ FaultCode.viable by decide)
  · split at h
    · rename_i fault hlong
      cases h
      rw [ReadOptions.code_of_tooLong hlong] at hcode
      exact absurd hcode (by decide)
    · have hviable := Reading.viable_document (b := b) ⟨options.maxDepth, (content bytes).length⟩
        options.whole (content bytes) s
      dsimp only at h
      split at h
      · cases h
      · rename_i fault c hdocument
        cases h
        rw [hdocument] at hviable
        cases hviable with
        | insideString hinside => exact absurd hcode hinside.not_viable
        | failed front back htext hback hrest =>
          have hlength : (content bytes).length - c.rest.length = front.length := by
            rw [hrest, List.length_append, Nat.add_sub_cancel]
          have hfront : bytes.take front.length = front := by
            have hprefix : front <+: bytes :=
              .trans ⟨c.rest, hrest.symm⟩ (content_isPrefix bytes)
            exact (List.prefix_iff_eq_take.1 hprefix).symm
          refine ⟨front.length, ?_, by rw [hlength], back, hback, by rwa [hfront]⟩
          rw [hrest, List.length_append]
          exact Nat.le_add_right ..

theorem Grammar.IsText.ne_nil {levels : Nat} {bytes : List UInt8} (h : IsText levels bytes) :
    bytes ≠ [] := by
  obtain ⟨t, rfl, -⟩ := h
  obtain ⟨b, tail, htail, -⟩ := t.value.exists_cons
  rw [Text.bytes, htail]
  simp

/-- Up to an offset before the first zero byte there is no zero byte. -/
theorem zero_not_mem_take {bytes : List UInt8} {k : Nat} (h : k ≤ (content bytes).length) :
    0 ∉ bytes.take k := by
  have hinitial : bytes.take k <+: content bytes :=
    List.prefix_of_prefix_length_le (List.take_prefix k bytes) (content_isPrefix bytes)
      ((List.length_take_le k bytes).trans h)
  exact fun hzero => zero_not_mem_content bytes (hinitial.mem hzero)

namespace Session

/-- **What stands before a fault can be completed**: the front of the text up to the offending byte
begins a document that is read as a whole with the same limit on its nesting. -/
theorem exists_completion_of_parse {s : Session} {options : ReadOptions} {bytes : List UInt8}
    {e : ReadFailure} (h : (s.parse options bytes).1 = .error e)
    (hcode : e.fault.code ∈ FaultCode.viable) :
    ∃ k : Nat, k ≤ (content bytes).length ∧ e.position = .ofOffset bytes k ∧
      ∃ back : List UInt8, ∀ u : Session, u.store.arena = none →
        ∃ root, (u.parse ⟨true, options.maxDepth, none⟩ (bytes.take k ++ back)).1 =
          .ok (root, (bytes.take k ++ back).length) := by
  rw [(parse_eq options bytes s).1] at h
  obtain ⟨k, hle, hposition, back, hback, htext⟩ := Builder.exists_text_of_read _ h hcode
  have hne := htext.ne_nil
  obtain ⟨text, htext, hnesting⟩ := htext
  have hcontent : content (bytes.take k ++ back) = bytes.take k ++ back :=
    content_eq_self fun hzero =>
      (List.mem_append.1 hzero).elim (zero_not_mem_take hle) hback
  have hread := @Document.read_of_text ⟨true, options.maxDepth, none⟩ _ rfl hne rfl text
    (htext.trans hcontent.symm) hnesting
  refine ⟨k, hle, hposition, back, fun u hheap => ?_⟩
  rw [(parse_eq _ _ u).1]
  rcases Store.read_eq ⟨true, options.maxDepth, none⟩ (bytes.take k ++ back) hheap with
    ⟨root, stop, t, h, h'⟩ | ⟨e, t, h, h'⟩
  · rw [hread, hcontent] at h'
    obtain ⟨-, rfl⟩ := Document.mk.inj (Except.ok.inj h')
    exact ⟨root, by rw [h]⟩
  · rw [hread] at h'
    cases h'

/-- The exponent of a number is left unread if it has no digits, and then the array is not closed.
-/
theorem exists_completion_of_parse_open_array :
    ∃ k : Nat, k ≤ (content (Utf8.encode "[1e, 2]")).length ∧
      Position.mk 1 3 2 = .ofOffset (Utf8.encode "[1e, 2]") k ∧
        ∃ back : List UInt8, ∀ u : Session, u.store.arena = none →
          ∃ root, (u.parse ⟨true, 1, none⟩ ((Utf8.encode "[1e, 2]").take k ++ back)).1 =
            .ok (root, ((Utf8.encode "[1e, 2]").take k ++ back).length) :=
  have hparse : ((Session.empty (some ⟨[], some 1, .unlimited⟩)).parse ⟨false, 1, some 100⟩
      (Utf8.encode "[1e, 2]")).1 = .error ⟨.unterminatedArray, 1, 3, 2⟩ := by decide +kernel
  exists_completion_of_parse hparse (by decide)

end Session

end LinkedJson
