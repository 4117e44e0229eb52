import LinkedJson.Proofs.Literal.InPlace
import LinkedJson.Proofs.Reading.Steps

/-!
# Documents in place

A document is read in place by a reader that goes from offset to offset over all of its bytes, and
knows of a zero byte only when it meets one: no byte is dropped beforehand. It takes its nodes from
a `Builder`, in the same order as the reader of texts.

`ReadsAs` says that such a reader ends like a reader of texts wherever the two stand at the same
place. Each way to put readers together keeps this, so documents are read in place as they are read
at the front of what stands before the first zero byte (`read_eq`).
-/

namespace LinkedJson.InPlace

open Ascii

/-- Where a reader in place stands: an offset and the state of its builder. -/
structure Place (σ : Type) where
  offset : Nat
  state : σ

/-- The outcome of a reader in place; a fault comes with the place of the offending byte. -/
abbrev PlaceReading (σ : Type) :=
  Except (ReadFault × Place σ)

/-- A reader in place: it starts at a place and ends at the place behind the value. -/
abbrev PlaceReader (σ α : Type) :=
  Place σ → PlaceReading σ (α × Place σ)

variable {σ ν κ : Type} (bytes : List UInt8) (b : Builder σ ν κ)

/-- A scanner as a reader; a literal alone takes no node. -/
def ofScan {α : Type} (state : σ) : Except (ReadFault × Nat) (α × Nat) →
    PlaceReading σ (α × Place σ)
  | .ok (a, j) => .ok (a, ⟨j, state⟩)
  | .error (fault, j) => .error (fault, ⟨j, state⟩)

/-- Takes a node for a scalar that began at `start` and is read up to the place. -/
def scalar (start : Nat) (v : Scalar) : PlaceReader σ ν := fun p =>
  match b.scalar v p.state with
  | none => .error (.nodeRefused, ⟨start, p.state⟩)
  | some (node, state) => .ok (node, ⟨p.offset, state⟩)

/-- Reads items with commas between them, at least one and at most one more than `commas`. -/
def separated (item : PlaceReader σ ν) (commas : Nat) (children : κ) : PlaceReader σ κ := fun p =>
  match item p with
  | .error (fault, p) => .error (fault, { p with state := b.abandon children p.state })
  | .ok (node, p) =>
    let (children, state) := b.push children node p.state
    let i := skipBlanks bytes p.offset
    match commas with
    | 0 => .ok (children, ⟨i, state⟩)
    | commas + 1 =>
      if byteAt bytes i = comma then
        separated item commas children ⟨skipBlanks bytes (i + 1), state⟩
      else .ok (children, ⟨i, state⟩)

/-- Reads the closing bracket behind the children of a container that began at `start`. -/
def closing (close : UInt8) (unterminated : ReadFault) (take : κ → σ → Option (ν × σ))
    (start : Nat) (children : κ) : PlaceReader σ ν := fun p =>
  if byteAt bytes p.offset ≠ close then
    .error (unterminated, { p with state := b.abandon children p.state })
  else match take children p.state with
    | none => .error (.nodeRefused, ⟨start, b.abandon children p.state⟩)
    | some (node, state) => .ok (node, ⟨p.offset + 1, state⟩)

/-- Reads the items and the closing bracket of a container whose opening bracket stood at `start`.
-/
def container (limits : ReadLimits) (close : UInt8) (unterminated : ReadFault)
    (take : κ → σ → Option (ν × σ)) (item : PlaceReader σ ν) (start : Nat) :
    PlaceReader σ ν := fun p =>
  let p := { p with offset := skipBlanks bytes p.offset }
  if byteAt bytes p.offset = close then
    closing bytes b close unterminated take start b.childless p
  else do
    let (children, p) ← separated bytes b item limits.maxCommas b.childless p
    closing bytes b close unterminated take start children p

/-- Reads a member: a name, a colon and a value. -/
def member (value : PlaceReader σ ν) : PlaceReader σ ν := fun p =>
  if byteAt bytes p.offset ≠ quote then .error (.expectedMemberName, p)
  else do
    let (name, p) ← ofScan p.state (readString bytes p.offset)
    let i := skipBlanks bytes p.offset
    if byteAt bytes i ≠ colon then .error (.expectedColon, ⟨i, p.state⟩)
    else do
      let (node, p) ← value ⟨skipBlanks bytes (i + 1), p.state⟩
      let (node, state) := b.rename name node p.state
      return (node, { p with state })

/-- Reads a value that is no container, or finds that there is none. -/
def atom : PlaceReader σ ν := fun p =>
  if startsWith bytes (Utf8.encode "null") p.offset then
    scalar b p.offset .null { p with offset := p.offset + 4 }
  else if startsWith bytes (Utf8.encode "false") p.offset then
    scalar b p.offset (.bool false) { p with offset := p.offset + 5 }
  else if startsWith bytes (Utf8.encode "true") p.offset then
    scalar b p.offset (.bool true) { p with offset := p.offset + 4 }
  else if byteAt bytes p.offset = quote then do
    let (s, after) ← ofScan p.state (readString bytes p.offset)
    scalar b p.offset (.string s) after
  else if byteAt bytes p.offset = minus ∨ isDigit (byteAt bytes p.offset) then do
    let (d, after) ← ofScan p.state (readNumber bytes p.offset)
    scalar b p.offset (.number (.ofDouble d)) after
  else if byteAt bytes p.offset = 0 then .error (.unexpectedEnd, p)
  else .error (.unexpectedCharacter, p)

/-- Reads a value whose containers hold values read by `inner`; without `inner` no container may
begin. -/
def valueWith (limits : ReadLimits) (inner : Option (PlaceReader σ ν)) : PlaceReader σ ν := fun p =>
  if byteAt bytes p.offset = openBracket then
    match inner with
    | none => .error (.nestingTooDeep limits.maxDepth, p)
    | some inner =>
      container bytes b limits closeBracket .unterminatedArray b.array inner p.offset
        { p with offset := p.offset + 1 }
  else if byteAt bytes p.offset = openBrace then
    match inner with
    | none => .error (.nestingTooDeep limits.maxDepth, p)
    | some inner =>
      container bytes b limits closeBrace .unterminatedObject b.object (member bytes b inner)
        p.offset { p with offset := p.offset + 1 }
  else atom bytes b p

/-- Reads a value inside of which `levels` containers may nest. -/
def value (limits : ReadLimits) : (levels : Nat) → PlaceReader σ ν
  | 0 => fun p => valueWith bytes b limits none p
  | levels + 1 => fun p => valueWith bytes b limits (some fun p => value limits levels p) p

/-- Reads the value that the bytes begin with. If all of them are asked for, only blanks and a zero
byte may follow. -/
def document (limits : ReadLimits) (whole : Bool) (state : σ) : PlaceReading σ (ν × Place σ) := do
  let (node, p) ← value bytes b limits limits.maxDepth.toNat ⟨skipBlanks bytes 0, state⟩
  if whole then
    let p := { p with offset := skipBlanks bytes p.offset }
    if byteAt bytes p.offset = 0 then .ok (node, p)
    else .error (.trailingData, { p with state := b.discard node p.state })
  else .ok (node, p)

/-- Reads a document out of bytes in place. -/
def read (options : ReadOptions) (state : σ) : Except ReadFailure (ν × Nat) × σ :=
  if bytes.isEmpty then (.error ⟨.noInput, .ofOffset bytes 0⟩, state)
  else match options.tooLong bytes with
    | some fault => (.error ⟨fault, .ofOffset bytes 0⟩, state)
    | none =>
      match document bytes b ⟨options.maxDepth, bytes.length⟩ options.whole state with
      | .ok (root, p) => (.ok (root, p.offset), p.state)
      | .error (fault, p) => (.error ⟨fault, .ofOffset bytes p.offset⟩, p.state)

/-! ## Readers that end alike -/

/-- A reader in place that began at `i` ends like a reader of texts, with the same state: with the
same value or the same fault, at the place where the reader has the rest of the text. -/
inductive Agrees {α : Type} (bytes : List UInt8) (stop i : Nat) :
    PlaceReading σ (α × Place σ) → Reading σ (α × Cursor σ) → Prop
  | ok {a : α} {j : Nat} {rest : List UInt8} {s : σ} : i ≤ j → At bytes stop j rest →
    Agrees bytes stop i (.ok (a, ⟨j, s⟩)) (.ok (a, ⟨rest, s⟩))
  | error {fault : ReadFault} {j : Nat} {rest : List UInt8} {s : σ} : At bytes stop j rest →
    Agrees bytes stop i (.error (fault, ⟨j, s⟩)) (.error (fault, ⟨rest, s⟩))

/-- The readers end alike wherever they begin at the same place. -/
def ReadsAs {α : Type} (bytes : List UInt8) (stop : Nat) (read : PlaceReader σ α)
    (read' : Reader σ α) : Prop :=
  ∀ ⦃i : Nat⦄ ⦃text : List UInt8⦄ (s : σ), At bytes stop i text →
    Agrees bytes stop i (read ⟨i, s⟩) (read' ⟨text, s⟩)

variable {bytes : List UInt8} {b : Builder σ ν κ} {text rest : List UInt8} {stop i j : Nat}

namespace Agrees

variable {α β : Type} {x : PlaceReading σ (α × Place σ)} {x' : Reading σ (α × Cursor σ)}

theorem mono (h : Agrees bytes stop j x x') (hle : i ≤ j) : Agrees bytes stop i x x' := by
  cases h with
  | ok hj hrest => exact .ok (Nat.le_trans hle hj) hrest
  | error hrest => exact .error hrest

/-- Steps that end alike one after the other end alike together. -/
theorem bind {f : α × Place σ → PlaceReading σ (β × Place σ)}
    {f' : α × Cursor σ → Reading σ (β × Cursor σ)} (h : Agrees bytes stop i x x')
    (hf : ∀ a j rest s, i ≤ j → At bytes stop j rest →
      Agrees bytes stop i (f (a, ⟨j, s⟩)) (f' (a, ⟨rest, s⟩))) :
    Agrees bytes stop i (x >>= f) (x' >>= f') := by
  cases h with
  | ok hle hrest => exact hf _ _ _ _ hle hrest
  | error hrest => exact .error hrest

end Agrees

theorem ScansAs.agrees {α : Type} {scan : Except (ReadFault × Nat) (α × Nat)}
    {scan' : Scan (α × List UInt8)} (h : ScansAs bytes stop i scan scan') (s : σ) :
    Agrees bytes stop i (ofScan s scan) (Reading.ofScan s scan') := by
  cases h with
  | ok hle hrest => exact .ok hle hrest
  | error hle hrest => exact .error hrest

/-! ## Bytes and words -/

theorem At.afterByte? {c : UInt8} (h : At bytes stop i text) (hc : c ≠ 0) :
    Reading.afterByte? c text = if byteAt bytes i = c then some text.tail else none := by
  cases text with
  | nil => rw [h.byte_nil, if_neg hc.symm, Reading.afterByte?]
  | cons d text => rw [h.byte, Reading.afterByte?, List.tail_cons]

theorem At.tail_of_byteAt {c : UInt8} (h : At bytes stop i text) (hbyte : byteAt bytes i = c)
    (hc : c ≠ 0) : At bytes stop (i + 1) text.tail := by
  cases text with
  | nil => exact absurd (hbyte.symm.trans h.byte_nil) hc
  | cons d text => exact h.tail

theorem At.afterWord? {word : String} (h : At bytes stop i text) (hword : 0 ∉ Utf8.encode word) :
    Reading.afterWord? word text =
      if InPlace.startsWith bytes (Utf8.encode word) i then
        some (text.drop (Utf8.encode word).length) else none := by
  rw [h.startsWith hword, Reading.afterWord?]

theorem At.drop_of_startsWith {word : List UInt8} (h : At bytes stop i text) (hword : 0 ∉ word)
    (hstarts : InPlace.startsWith bytes word i = true) :
    At bytes stop (i + word.length) (text.drop word.length) := by
  rw [h.startsWith hword] at hstarts
  obtain ⟨after, rfl⟩ := List.isPrefixOf_iff_prefix.1 hstarts
  rw [List.drop_left]
  exact h.drop

theorem At.isEmpty_iff (h : At bytes stop i text) : text.isEmpty = true ↔ byteAt bytes i = 0 := by
  cases text with
  | nil => simp [h.byte_nil]
  | cons c text =>
    obtain ⟨hbyte, hzero, -⟩ := h.byte_cons
    simp [hbyte, hzero]

/-! ## The readers, one by one -/

theorem scalar_agrees {start : List UInt8} (hstart : At bytes stop i start)
    (hat : At bytes stop j rest) (hle : i ≤ j) (v : Scalar) (s : σ) :
    Agrees bytes stop i (scalar b i v ⟨j, s⟩) (Reading.scalar b start v ⟨rest, s⟩) := by
  unfold scalar Reading.scalar
  simp only
  cases b.scalar v s with
  | none => exact .error hstart
  | some p => exact .ok hle hat

section

variable {depth : Int} {m n : Nat}

/-- The loops over the items agree as long as neither stops for its bound: each comma takes a byte
of the text, so a bound that is no less than the text is never met. -/
theorem separated_agrees {item : PlaceReader σ ν} {item' : Reader σ ν}
    (hitem : ReadsAs bytes stop item item') {i m n : Nat} {text : List UInt8}
    (hat : At bytes stop i text) (hm : text.length ≤ m) (hn : text.length ≤ n) (children : κ)
    (s : σ) :
    Agrees bytes stop i (separated bytes b item m children ⟨i, s⟩)
      (Reading.separated b item' n children ⟨text, s⟩) := by
  have hstep := hitem s hat
  rw [separated.eq_def, Reading.separated.eq_def]
  generalize item ⟨i, s⟩ = x at hstep ⊢
  generalize item' ⟨text, s⟩ = x' at hstep ⊢
  cases hstep with
  | error hrest => exact .error hrest
  | @ok node j rest s hle hrest =>
    have hafter := hrest.skipBlanks
    have hle' : i ≤ skipBlanks bytes j := Nat.le_trans hle (le_of_dropWhile hrest hafter)
    have hcomma := hafter.afterByte? (c := comma) (by decide)
    by_cases hbyte : byteAt bytes (skipBlanks bytes j) = comma
    · have hnext := hafter.tail_of_byteAt hbyte (by decide)
      have hnext' := hnext.skipBlanks
      have hle'' := le_of_dropWhile hnext hnext'
      have hless : (LinkedJson.skipBlanks (LinkedJson.skipBlanks rest).tail).length <
          text.length := by
        have := hat.length
        have := hnext'.length
        omega
      obtain ⟨m, rfl⟩ : ∃ k, m = k + 1 := ⟨m - 1, by omega⟩
      obtain ⟨n, rfl⟩ : ∃ k, n = k + 1 := ⟨n - 1, by omega⟩
      simp only [Cursor.skipBlanks, hcomma, hbyte, if_true]
      exact (separated_agrees hitem hnext' (by omega) (by omega) _ _).mono (by omega)
    · cases m <;> cases n <;> simp only [Cursor.skipBlanks, hcomma, hbyte, if_false] <;>
        exact .ok hle' hafter
termination_by text.length

theorem closing_agrees {close : UInt8} (hclose : close ≠ 0) {unterminated : ReadFault}
    {take : κ → σ → Option (ν × σ)} {start : List UInt8} (hstart : At bytes stop i start)
    (hat : At bytes stop j text) (hle : i ≤ j) (children : κ) (s : σ) :
    Agrees bytes stop i (closing bytes b close unterminated take i children ⟨j, s⟩)
      (Reading.closing b close unterminated take start children ⟨text, s⟩) := by
  unfold closing Reading.closing
  simp only [hat.afterByte? hclose]
  by_cases hbyte : byteAt bytes j = close
  · simp only [hbyte, ne_eq, not_true_eq_false, if_false, if_true]
    cases take children s with
    | none => exact .error hstart
    | some p => exact .ok (by omega) (hat.tail_of_byteAt hbyte hclose)
  · simp only [hbyte, ne_eq, not_false_eq_true, if_true, if_false]
    exact .error hat

theorem container_agrees {close : UInt8} (hclose : close ≠ 0) {unterminated : ReadFault}
    {take : κ → σ → Option (ν × σ)} {item : PlaceReader σ ν} {item' : Reader σ ν}
    (hitem : ReadsAs bytes stop item item') (hm : stop ≤ m) (hn : stop ≤ n) {start : List UInt8}
    (hstart : At bytes stop i start) (hat : At bytes stop j text) (hle : i ≤ j) (s : σ) :
    Agrees bytes stop i (container bytes b ⟨depth, m⟩ close unterminated take item i ⟨j, s⟩)
      (Reading.container b ⟨depth, n⟩ close unterminated take item' start ⟨text, s⟩) := by
  have hinside := hat.skipBlanks
  have hle' : i ≤ skipBlanks bytes j := Nat.le_trans hle (le_of_dropWhile hat hinside)
  unfold container Reading.container
  simp only [Cursor.skipBlanks, hinside.afterByte? hclose]
  by_cases hbyte : byteAt bytes (skipBlanks bytes j) = close
  · simp only [hbyte, if_true, Option.isSome_some]
    exact closing_agrees hclose hstart hinside hle' b.childless s
  · simp only [hbyte, if_false, Option.isSome_none, Bool.false_eq_true]
    refine Agrees.bind ((separated_agrees hitem hinside ?_ ?_ b.childless s).mono hle')
      fun children j rest s hle hrest => closing_agrees hclose hstart hrest hle children s
    · exact Nat.le_trans hinside.length_le hm
    · exact Nat.le_trans hinside.length_le hn

theorem member_agrees {value : PlaceReader σ ν} {value' : Reader σ ν}
    (hvalue : ReadsAs bytes stop value value') :
    ReadsAs bytes stop (member bytes b value) (Reading.member b value') := by
  intro i text s h
  unfold member Reading.member
  simp only [h.afterByte? (c := quote) (by decide)]
  by_cases hquote : byteAt bytes i = quote
  · simp only [hquote, ne_eq, not_true_eq_false, if_false, if_true, Option.isNone_some,
      Bool.false_eq_true]
    refine Agrees.bind ((scansAs_string h).agrees s) fun name j rest s hle hat => ?_
    have hcolon := hat.skipBlanks
    have hle' := le_of_dropWhile hat hcolon
    simp only [Cursor.skipBlanks, hcolon.afterByte? (c := colon) (by decide)]
    by_cases hbyte : byteAt bytes (skipBlanks bytes j) = colon
    · simp only [hbyte, not_true_eq_false, if_false, if_true]
      have hstart := hcolon.tail_of_byteAt hbyte (by decide)
      have hle'' := le_of_dropWhile hstart hstart.skipBlanks
      exact Agrees.bind ((hvalue s hstart.skipBlanks).mono (by omega)) fun node j rest s hle hat =>
        .ok hle hat
    · simp only [hbyte, not_false_eq_true, if_true, if_false]
      exact .error hcolon
  · simp only [hquote, ne_eq, not_false_eq_true, if_true, if_false, Option.isNone_none]
    exact .error h

/-- The words of the notation are ASCII. -/
theorem zero_not_mem_words : 0 ∉ Utf8.encode "null" ∧ 0 ∉ Utf8.encode "false" ∧
    0 ∉ Utf8.encode "true" := by
  decide

theorem atom_agrees : ReadsAs bytes stop (atom bytes b) (Reading.atom b) := by
  intro i text s h
  obtain ⟨hnull, hfalse, htrue⟩ := zero_not_mem_words
  unfold atom Reading.atom
  simp only [h.afterWord? hnull, h.afterWord? hfalse, h.afterWord? htrue]
  by_cases hnull' : startsWith bytes (Utf8.encode "null") i = true
  · simp only [hnull', if_true]
    exact scalar_agrees h (h.drop_of_startsWith hnull hnull') (Nat.le_add_right ..) .null s
  by_cases hfalse' : startsWith bytes (Utf8.encode "false") i = true
  · simp only [hnull', hfalse', if_true, Bool.false_eq_true, if_false]
    exact scalar_agrees h (h.drop_of_startsWith hfalse hfalse') (Nat.le_add_right ..)
      (.bool false) s
  by_cases htrue' : startsWith bytes (Utf8.encode "true") i = true
  · simp only [hnull', hfalse', htrue', if_true, Bool.false_eq_true, if_false]
    exact scalar_agrees h (h.drop_of_startsWith htrue htrue') (Nat.le_add_right ..) (.bool true) s
  simp only [hnull', hfalse', htrue', Bool.false_eq_true, if_false]
  cases text with
  | nil =>
    have hquote : (0 : UInt8) ≠ quote := by decide
    have hnumber : ¬ ((0 : UInt8) = minus ∨ isDigit 0 = true) := by decide
    simp only [h.byte_nil, hquote, hnumber, if_false, if_true]
    exact .error h
  | cons c text =>
    obtain ⟨hbyte, hzero, -⟩ := h.byte_cons
    simp only [hbyte, hzero, if_false]
    split
    · exact Agrees.bind ((scansAs_string h).agrees s) fun name j rest s hle hat =>
        scalar_agrees h hat hle (.string name) s
    · split
      · exact Agrees.bind ((scansAs_number h).agrees s) fun d j rest s hle hat =>
          scalar_agrees h hat hle (.number (.ofDouble d)) s
      · exact .error h

theorem valueWith_agrees (hm : stop ≤ m) (hn : stop ≤ n)
    (inner : Option (PlaceReader σ ν × Reader σ ν))
    (hinner : ∀ p ∈ inner, ReadsAs bytes stop p.1 p.2) :
    ReadsAs bytes stop (valueWith bytes b ⟨depth, m⟩ (inner.map Prod.fst))
      (Reading.valueWith b ⟨depth, n⟩ (inner.map Prod.snd)) := by
  intro i text s h
  have hinside {c : UInt8} (hc : c ≠ 0) (hbyte : byteAt bytes i = c) := h.tail_of_byteAt hbyte hc
  unfold valueWith Reading.valueWith
  simp only [h.afterByte? (c := openBracket) (by decide), h.afterByte? (c := openBrace) (by decide)]
  by_cases hbracket : byteAt bytes i = openBracket
  · simp only [hbracket, if_true]
    cases inner with
    | none => exact .error h
    | some p =>
      exact container_agrees (by decide) (hinner p rfl) hm hn h (hinside (by decide) hbracket)
        (Nat.le_succ i) s
  · by_cases hbrace : byteAt bytes i = openBrace
    · have hne : ¬ openBrace = openBracket := by decide
      simp only [hbrace, hne, if_true, if_false]
      cases inner with
      | none => exact .error h
      | some p =>
        exact container_agrees (by decide) (member_agrees (hinner p rfl)) hm hn h
          (hinside (by decide) hbrace) (Nat.le_succ i) s
    · simp only [hbracket, hbrace, if_false]
      exact atom_agrees s h

theorem value_agrees (b : Builder σ ν κ) (depth : Int) (hm : stop ≤ m) (hn : stop ≤ n)
    (levels : Nat) :
    ReadsAs bytes stop (value bytes b ⟨depth, m⟩ levels) (Reading.value b ⟨depth, n⟩ levels) := by
  induction levels with
  | zero => exact valueWith_agrees hm hn none fun p h => nomatch h
  | succ levels ih =>
    refine valueWith_agrees hm hn (some (_, _)) fun p h => ?_
    cases h
    exact ih

theorem document_agrees (b : Builder σ ν κ) (depth : Int) (hm : stop ≤ m) (hn : stop ≤ n)
    (h : At bytes stop 0 text) (whole : Bool) (s : σ) :
    Agrees bytes stop 0 (document bytes b ⟨depth, m⟩ whole s)
      (Reading.document b ⟨depth, n⟩ whole text s) := by
  have hvalue := (value_agrees b depth hm hn depth.toNat s h.skipBlanks).mono (Nat.zero_le _)
  unfold document Reading.document
  refine Agrees.bind hvalue fun node j rest s hle hat => ?_
  cases whole with
  | false => exact .ok hle hat
  | true =>
    have hafter := hat.skipBlanks
    simp only [if_true, Cursor.skipBlanks, hafter.isEmpty_iff]
    split
    · exact .ok (Nat.zero_le _) hafter
    · exact .error hafter

end

/-- **A document is read in place as it is read at the front of what stands before the first zero
byte.** -/
theorem read_eq (bytes : List UInt8) (b : Builder σ ν κ) (options : ReadOptions) (s : σ) :
    read bytes b options s = b.read options bytes s := by
  have hat : At bytes (content bytes).length 0 (content bytes) := ⟨rfl, Nat.zero_add _⟩
  have hlength : (content bytes).length ≤ bytes.length := (List.takeWhile_sublist _).length_le
  have hdocument :=
    document_agrees b options.maxDepth hlength (Nat.le_refl _) hat options.whole s
  unfold read Builder.read
  cases bytes.isEmpty with
  | true => rfl
  | false =>
    cases options.tooLong bytes with
    | some fault => rfl
    | none =>
      simp only [Bool.false_eq_true, if_false]
      generalize document bytes b _ options.whole s = x at hdocument ⊢
      generalize Reading.document b _ options.whole (content bytes) s = x' at hdocument ⊢
      cases hdocument with
      | ok hle hrest => simp only [← hrest.eq_sub]
      | error hrest => simp only [← hrest.eq_sub]

end LinkedJson.InPlace
