import LinkedJson.Proofs.Grammar.Acceptance
import LinkedJson.Proofs.Store.Faces
import LinkedJson.Proofs.Store.Growth

/-!
# How far a value reaches

The end that is told of a value is its own: the bytes before it are read as the same value whatever
follows them, so that values can be read back to back. Only a number has to be kept from going on
(`MayFollow`); inside a container a comma, a blank or the closing bracket does that.

`Takes` says that a reader takes one word off every text that the word begins, and comes to the same
result. Each reader takes a word wherever it succeeds, over every builder. The bound on the commas
may change with the text, as long as it is no less than the word.
-/

namespace LinkedJson

open Ascii Grammar

namespace Reading

variable {σ ν κ α : Type} {b : Builder σ ν κ} {depth : Int}

/-- The text begins like a number. -/
def BeginsNumber (text : List UInt8) : Prop :=
  ∃ first ∈ text.head?, first = minus ∨ isDigit first = true

/-- What may stand behind a word that was read as a value: anything, unless the word is a number and
would be longer. -/
def MayFollow (word rest : List UInt8) : Prop :=
  BeginsNumber word → NumberLiteral.Stops rest

/-- At a state the reader takes the word off every text that begins with it and goes on as `Next`
allows. The reader depends on a bound that need not be more than the word is long. -/
structure Takes (Next : List UInt8 → List UInt8 → Prop) (read : Nat → Reader σ α)
    (word : List UInt8) (s : σ) (a : α) (t : σ) : Prop where
  ne_nil : word ≠ []
  read_append : ∀ {rest : List UInt8} {m : Nat}, Next word rest → word.length ≤ m →
    read m ⟨word ++ rest, s⟩ = .ok (a, ⟨rest, t⟩)

/-- What the reader passes over when it succeeds is a word that it takes. -/
def Exact (Next : List UInt8 → List UInt8 → Prop) (read : Nat → Reader σ α) : Prop :=
  ∀ {m : Nat} {c c' : Cursor σ} {a : α}, read m c = .ok (a, c') →
    ∃ word, c.rest = word ++ c'.rest ∧ Takes Next read word c.state a c'.state

theorem Exact.mono {Next Next' : List UInt8 → List UInt8 → Prop} {read : Nat → Reader σ α}
    (h : Exact Next read) (hnext : ∀ {word rest}, Next' word rest → Next word rest) :
    Exact Next' read := by
  intro m c c' a hread
  obtain ⟨word, hword, htakes⟩ := h hread
  exact ⟨word, hword, htakes.ne_nil, fun hrest => htakes.read_append (hnext hrest)⟩

/-! ## Words and blanks -/

theorem noBlank_skipBlanks (text : List UInt8) : NoBlank (skipBlanks text) := by
  intro first hfirst
  have hhead := List.head?_dropWhile_not isBlank text
  change (text.dropWhile isBlank).head? = some first at hfirst
  rw [hfirst] at hhead
  exact Bool.eq_false_iff.2 (by simpa using hhead)

/-- A word behind blanks begins without one, whatever follows the word. -/
theorem skipBlanks_word {text word rest : List UInt8} (h : skipBlanks text = word ++ rest)
    (hne : word ≠ []) (next : List UInt8) : skipBlanks (word ++ next) = word ++ next := by
  have hblank := noBlank_skipBlanks text
  obtain ⟨first, tail, rfl⟩ := List.exists_cons_of_ne_nil hne
  rw [h] at hblank
  exact skipBlanks_of_noBlank (noBlank_cons (hblank first rfl))

/-- What begins like a number behind blanks does so whatever follows. -/
theorem BeginsNumber.skipBlanks_append {text : List UInt8} (h : BeginsNumber (skipBlanks text))
    (rest : List UInt8) : BeginsNumber (skipBlanks (text ++ rest)) := by
  obtain ⟨first, hhead, hfirst⟩ := h
  obtain ⟨tail, htail⟩ := List.head?_eq_some_iff.1 hhead
  refine ⟨first, ?_, hfirst⟩
  unfold skipBlanks at htail ⊢
  rw [List.dropWhile_append, htail]
  rfl

/-! ## The readers, one by one -/

theorem atom_exact : Exact MayFollow fun _ => atom b := by
  intro m c c' node h
  obtain ⟨v, hat, hscalar⟩ := atom_eq_ok_iff.1 h
  have key : ∀ word, word ≠ [] → c.rest = word ++ c'.rest →
      (∀ rest, MayFollow word rest → AtomAt (word ++ rest) v rest) →
      ∃ word, c.rest = word ++ c'.rest ∧
        Takes MayFollow (fun _ => atom b) word c.state node c'.state := by
    intro word hne hword hatom
    exact ⟨word, hword, hne, fun hrest _ => atom_eq_ok_iff.2 ⟨v, hatom _ hrest, hscalar⟩⟩
  generalize c.rest = text at hat key
  generalize c'.rest = rest at hat key
  cases hat with
  | null => exact key _ (by decide) rfl fun rest _ => .null rest
  | false => exact key _ (by decide) rfl fun rest _ => .false rest
  | true => exact key _ (by decide) rfl fun rest _ => .true rest
  | string hread =>
    obtain ⟨literal, hword, hliteral⟩ := StringLiteral.eq_append_of_read hread
    obtain ⟨inner, rfl⟩ := StringLiteral.head_of_read hliteral
    exact key _ (by simp) hword fun rest _ => .string (StringLiteral.read_append hliteral rest)
  | number hfirst hread =>
    rename_i first tail d
    obtain ⟨literal, hword, hliteral⟩ := NumberLiteral.eq_append_of_read hread
    obtain ⟨tail', rfl⟩ : ∃ tail', literal = first :: tail' := by
      cases literal with
      | nil => cases hliteral
      | cons first' tail' =>
        cases hword
        exact ⟨tail', rfl⟩
    refine key _ (by simp) hword fun rest hrest => .number hfirst ?_
    exact NumberLiteral.read_append hliteral (hrest ⟨first, rfl, hfirst⟩)

/-- A bracket that closes a container. -/
def IsClosing (close : UInt8) : Prop :=
  close = closeBracket ∨ close = closeBrace

theorem IsClosing.follows {close : UInt8} (h : IsClosing close) (rest : List UInt8) :
    Follows (close :: rest) :=
  follows_cons (.inr h) rest

theorem IsClosing.skipBlanks_cons {close : UInt8} (h : IsClosing close) (w : Blanks)
    (rest : List UInt8) : skipBlanks (w.bytes ++ close :: rest) = close :: rest := by
  rcases h with rfl | rfl <;> exact Grammar.skipBlanks_cons w (by decide) rest

theorem IsClosing.ne_comma {close : UInt8} (h : IsClosing close) : close ≠ comma := by
  rcases h with rfl | rfl <;> decide

/-- At a state the items are taken off every text that begins with them, with all that stands
between them, and goes on with a closing bracket. There are fewer commas than bytes. -/
structure TakesItems (b : Builder σ ν κ) (read : Nat → Reader σ ν) (word : List UInt8) (s : σ)
    (children children' : κ) (t : σ) : Prop where
  ne_nil : word ≠ []
  read_append : ∀ {close : UInt8} {rest : List UInt8} {m commas : Nat}, IsClosing close →
    word.length ≤ m → word.length ≤ commas →
      separated b (read m) commas children ⟨word ++ close :: rest, s⟩ =
        .ok (children', ⟨close :: rest, t⟩)

section

variable {read : Nat → Reader σ ν} {item : List UInt8} {s t u : σ} {node : ν}
  {children children' : κ}

/-- The last item is one that no comma follows. -/
theorem TakesItems.last (h : Takes (fun _ => Follows) read item s node t) (w : Blanks)
    (children : κ) :
    TakesItems b read (item ++ w.bytes) s children (b.push children node t).1
      (b.push children node t).2 := by
  refine ⟨List.append_ne_nil_of_left_ne_nil h.ne_nil _, fun {close rest m commas} hclose hm _ => ?_⟩
  rw [List.length_append] at hm
  rw [List.append_assoc]
  have hitem := h.read_append (follows_append w (hclose.follows rest)) (m := m) (by omega)
  refine separated_eq_ok_iff.2 ⟨node, _, hitem, .inl ⟨rfl, ?_, .inr ?_⟩⟩
  · rw [hclose.skipBlanks_cons]
  · rw [hclose.skipBlanks_cons, List.head?_cons, ne_eq, Option.some.injEq]
    exact hclose.ne_comma

/-- An item, a comma and more items, with blanks around the comma. -/
theorem TakesItems.more (h : Takes (fun _ => Follows) read item s node t) (w w' : Blanks)
    {items : List UInt8}
    (hitems : TakesItems b read items (b.push children node t).2 (b.push children node t).1
      children' u)
    (hskip : ∀ rest, skipBlanks (items ++ rest) = items ++ rest) :
    TakesItems b read (item ++ (w.bytes ++ comma :: (w'.bytes ++ items))) s children children' u := by
  refine ⟨List.append_ne_nil_of_left_ne_nil h.ne_nil _,
    fun {close rest m commas} hclose hm hcommas => ?_⟩
  simp only [List.length_append, List.length_cons] at hm hcommas
  simp only [List.append_assoc, List.cons_append]
  obtain ⟨commas, rfl⟩ : ∃ k, commas = k + 1 := Nat.exists_eq_add_one.2 (by omega)
  have hitem := h.read_append
    (follows_append w (follows_cons (.inl rfl) (w'.bytes ++ (items ++ close :: rest))))
    (m := m) (by omega)
  refine separated_eq_ok_iff.2 ⟨node, _, hitem, .inr ⟨commas, _, rfl,
    Grammar.skipBlanks_cons w (by decide) _, ?_⟩⟩
  rw [skipBlanks_append, hskip]
  exact hitems.read_append hclose (by omega) (by omega)

end

/-- Items are read from their own bytes. -/
theorem separated_exact {read : Nat → Reader σ ν} (hread : Exact (fun _ => Follows) read)
    {m commas : Nat} {children children' : κ} {c c' : Cursor σ}
    (h : separated b (read m) commas children c = .ok (children', c')) :
    ∃ word, c.rest = word ++ c'.rest ∧
      TakesItems b read word c.state children children' c'.state := by
  obtain ⟨node, after, hitem, hturn⟩ := separated_eq_ok_iff.1 h
  obtain ⟨item, hword, htakes⟩ := hread hitem
  obtain ⟨w, hw⟩ := exists_blanks after.rest
  rcases hturn with ⟨rfl, rfl, -⟩ | ⟨n, rest, rfl, hcomma, hmore⟩
  · refine ⟨item ++ w.bytes, ?_, .last htakes w children⟩
    rw [hword, List.append_assoc, hw]
  · obtain ⟨w', hw'⟩ := exists_blanks rest
    obtain ⟨items, hitems, htake_items⟩ := separated_exact hread hmore
    replace hitems : skipBlanks rest = items ++ c'.rest := hitems
    refine ⟨item ++ (w.bytes ++ comma :: (w'.bytes ++ items)), ?_,
      .more htakes w w' htake_items (skipBlanks_word hitems htake_items.ne_nil)⟩
    rw [hword, ← hw, hcomma, ← hw', hitems]
    simp only [List.append_assoc, List.cons_append]
termination_by commas

/-- A container is read up to its closing bracket, so anything may stand behind it. -/
theorem container_exact {close : UInt8} (hclose : IsClosing close) {unterminated : ReadFault}
    {take : κ → σ → Option (ν × σ)} {read : Nat → Reader σ ν}
    (hread : Exact (fun _ => Follows) read) {m : Nat} {start : List UInt8} {c c' : Cursor σ}
    {node : ν}
    (h : container b ⟨depth, m⟩ close unterminated take (read m) start c = .ok (node, c')) :
    ∃ word, c.rest = word ++ c'.rest ∧
      ∀ {rest start : List UInt8} {m : Nat}, word.length ≤ m →
        container b ⟨depth, m⟩ close unterminated take (read m) start ⟨word ++ rest, c.state⟩ =
          .ok (node, ⟨rest, c'.state⟩) := by
  obtain ⟨w, hw⟩ := exists_blanks c.rest
  rcases container_eq_ok_iff.1 h with
    ⟨hend, htake⟩ | ⟨hopen, children, inside, hitems, hend, htake⟩
  · refine ⟨w.bytes ++ [close], ?_, fun _ => ?_⟩
    · rw [← hw, hend, List.append_assoc]
      rfl
    · refine container_eq_ok_iff.2 (.inl ⟨?_, htake⟩)
      rw [List.append_assoc]
      exact hclose.skipBlanks_cons w _
  · obtain ⟨items, hword, htakes⟩ := separated_exact hread hitems
    replace hword : skipBlanks c.rest = items ++ inside.rest := hword
    refine ⟨w.bytes ++ (items ++ [close]), ?_, fun {rest start m} hm => ?_⟩
    · rw [← hw, hword, hend]
      simp
    · simp only [List.length_append, List.length_singleton] at hm
      have hskip : skipBlanks (w.bytes ++ (items ++ [close]) ++ rest) = items ++ close :: rest := by
        simp only [List.append_assoc, skipBlanks_append, List.singleton_append]
        exact skipBlanks_word hword htakes.ne_nil _
      refine container_eq_ok_iff.2 (.inr ⟨?_, children, ⟨close :: rest, inside.state⟩, ?_, rfl,
        htake⟩)
      · obtain ⟨first, tail, rfl⟩ := List.exists_cons_of_ne_nil htakes.ne_nil
        rw [hword] at hopen
        rw [hskip]
        exact hopen
      · simp only [Cursor.skipBlanks, hskip]
        exact htakes.read_append hclose (by omega) (by omega)

/-- A member ends where its value does. -/
theorem member_exact {read : Nat → Reader σ ν} (hread : Exact (fun _ => Follows) read) :
    Exact (fun _ => Follows) fun m => member b (read m) := by
  intro m c c' node h
  obtain ⟨name, rest, rest', n, after, hname, hcolon, hvalue, rfl, rfl⟩ := member_eq_ok_iff.1 h
  obtain ⟨literal, hliteral, hread_literal⟩ := StringLiteral.eq_append_of_read hname
  obtain ⟨w, hw⟩ := exists_blanks rest
  obtain ⟨w', hw'⟩ := exists_blanks rest'
  obtain ⟨word, hword, htakes⟩ := hread hvalue
  replace hword : skipBlanks rest' = word ++ after.rest := hword
  refine ⟨literal ++ (w.bytes ++ colon :: (w'.bytes ++ word)), ?_, by simp,
    fun {rest m} hrest hm => ?_⟩
  · rw [hliteral, ← hw, hcolon, ← hw', hword]
    simp only [List.append_assoc, List.cons_append]
  · simp only [List.length_append, List.length_cons] at hm
    simp only [List.append_assoc, List.cons_append]
    refine member_eq_ok_iff.2 ⟨name, _, _, n, ⟨rest, after.state⟩,
      StringLiteral.read_append hread_literal _, Grammar.skipBlanks_cons w (by decide) _, ?_, rfl,
      rfl⟩
    rw [skipBlanks_append, skipBlanks_word hword htakes.ne_nil]
    exact htakes.read_append hrest (by omega)

/-- Where a value is read, it is read from its own bytes. -/
theorem value_exact (levels : Nat) : Exact MayFollow fun m => value b ⟨depth, m⟩ levels := by
  intro m c c' node h
  -- whatever follows a container, it ends with its bracket
  have bracketed : ∀ {bracket : UInt8} {text word : List UInt8}, c.rest = bracket :: text →
      text = word ++ c'.rest →
      (∀ {rest : List UInt8} {m : Nat}, word.length ≤ m →
        value b ⟨depth, m⟩ levels ⟨bracket :: (word ++ rest), c.state⟩ =
          .ok (node, ⟨rest, c'.state⟩)) →
      ∃ word, c.rest = word ++ c'.rest ∧
        Takes MayFollow (fun m => value b ⟨depth, m⟩ levels) word c.state node c'.state := by
    intro bracket text word hopen hword hagain
    refine ⟨bracket :: word, ?_, by simp, fun _ hm => hagain (Nat.le_of_succ_le hm)⟩
    rw [hopen, hword]
    rfl
  have items {n : Nat} (ih : Exact MayFollow fun m => value b ⟨depth, m⟩ n) :
      Exact (fun _ => Follows) fun m => value b ⟨depth, m⟩ n :=
    ih.mono fun hrest _ => hrest.stops
  rcases value_eq_ok_iff.1 h with
    ⟨n, text, rfl, hopen, hcontainer⟩ | ⟨n, text, rfl, hopen, hcontainer⟩ | ⟨hne, hne', hatom⟩
  · obtain ⟨word, hword, hagain⟩ := container_exact (.inl rfl) (items (value_exact n)) hcontainer
    exact bracketed hopen hword fun hm =>
      value_eq_ok_iff.2 (.inl ⟨n, _, rfl, rfl, hagain hm⟩)
  · obtain ⟨word, hword, hagain⟩ :=
      container_exact (.inr rfl) (member_exact (items (value_exact n))) hcontainer
    exact bracketed hopen hword fun hm =>
      value_eq_ok_iff.2 (.inr (.inl ⟨n, _, rfl, rfl, hagain hm⟩))
  · obtain ⟨word, hword, htakes⟩ := atom_exact hatom (m := m)
    refine ⟨word, hword, htakes.ne_nil, fun {rest m} hrest hm => ?_⟩
    obtain ⟨first, tail, rfl⟩ := List.exists_cons_of_ne_nil htakes.ne_nil
    rw [hword] at hne hne'
    exact value_eq_ok_iff.2 (.inr (.inr ⟨hne, hne', htakes.read_append hrest hm⟩))
termination_by levels

/-- A scalar that begins like a number is one. -/
theorem exists_number_of_atomAt {text rest : List UInt8} {v : Scalar} (h : AtomAt text v rest)
    (hfirst : BeginsNumber text) : ∃ d, v = .number (.ofDouble d) := by
  have other (first : UInt8) (hhead : text.head? = some first)
      (hno : ¬ (first = minus ∨ isDigit first = true)) : ∃ d, v = .number (.ofDouble d) := by
    obtain ⟨first', hhead', hfirst⟩ := hfirst
    rw [hhead] at hhead'
    cases hhead'
    exact absurd hfirst hno
  cases h with
  | null => exact other 0x6e rfl (by decide)
  | false => exact other 0x66 rfl (by decide)
  | true => exact other 0x74 rfl (by decide)
  | string hread =>
    obtain ⟨inner, rfl⟩ := StringLiteral.head_of_read hread
    exact other quote rfl (by decide)
  | number => exact ⟨_, rfl⟩

/-- A value that begins like a number is one. -/
theorem exists_scalar_of_value {limits : ReadLimits} {levels : Nat} {c c' : Cursor σ} {node : ν}
    (h : value b limits levels c = .ok (node, c')) (hfirst : BeginsNumber c.rest) :
    ∃ d, b.scalar (.number (.ofDouble d)) c.state = some (node, c'.state) := by
  have container : ∀ {bracket : UInt8} {text : List UInt8}, c.rest = bracket :: text →
      ¬ (bracket = minus ∨ isDigit bracket = true) → False := by
    intro bracket text htext hno
    obtain ⟨first, hhead, hfirst⟩ := hfirst
    rw [htext] at hhead
    cases hhead
    exact hno hfirst
  rcases value_eq_ok_iff.1 h with ⟨_, _, -, hopen, -⟩ | ⟨_, _, -, hopen, -⟩ | ⟨-, -, hatom⟩
  · exact (container hopen (by decide)).elim
  · exact (container hopen (by decide)).elim
  · obtain ⟨v, hat, hscalar⟩ := atom_eq_ok_iff.1 hatom
    obtain ⟨d, rfl⟩ := exists_number_of_atomAt hat hfirst
    exact ⟨d, hscalar⟩

theorem document_eq_value (limits : ReadLimits) (text : List UInt8) (s : σ) :
    document b limits false text s =
      value b limits limits.maxDepth.toNat ⟨skipBlanks text, s⟩ := by
  unfold document
  simp only [Cursor.skipBlanks]
  cases value b limits limits.maxDepth.toNat ⟨skipBlanks text, s⟩ <;> rfl

/-- A document is read from its own bytes, the blanks in front of it among them. -/
theorem document_exact :
    Exact (fun front => MayFollow (skipBlanks front)) fun m (c : Cursor σ) =>
      document b ⟨depth, m⟩ false c.rest c.state := by
  intro m c c' node h
  simp only [document_eq_value] at h
  obtain ⟨w, hw⟩ := exists_blanks c.rest
  obtain ⟨word, hword, htakes⟩ := value_exact _ h
  replace hword : skipBlanks c.rest = word ++ c'.rest := hword
  have hskip (rest : List UInt8) : skipBlanks (w.bytes ++ (word ++ rest)) = word ++ rest := by
    rw [skipBlanks_append, skipBlanks_word hword htakes.ne_nil]
  refine ⟨w.bytes ++ word, ?_, List.append_ne_nil_of_right_ne_nil _ htakes.ne_nil,
    fun {rest m} hrest hm => ?_⟩
  · rw [← hw, hword, List.append_assoc]
  · have hfront := hskip []
    rw [List.append_nil] at hfront
    rw [hfront] at hrest
    rw [List.length_append] at hm
    simp only [document_eq_value, List.append_assoc, hskip]
    exact htakes.read_append hrest (by omega)

end Reading

/-! ## Documents -/

open Reading

theorem NumberLiteral.Stops.content {text : List UInt8} (h : Stops text) :
    Stops (LinkedJson.content text) := by
  intro first hfirst
  refine h first ?_
  obtain ⟨tail, htail⟩ := List.head?_eq_some_iff.1 hfirst
  obtain ⟨rest, hrest⟩ := content_isPrefix text
  rw [← hrest, htail]
  rfl

namespace Builder

variable {σ ν κ : Type} {b : Builder σ ν κ} {options : ReadOptions} {bytes : List UInt8}
  {stop : Nat} {s t : σ} {node : ν}

theorem read_eq_ok_iff :
    b.read options bytes s = (.ok (node, stop), t) ↔
      bytes ≠ [] ∧ options.tooLong bytes = none ∧
        ∃ c, document b ⟨options.maxDepth, (content bytes).length⟩ options.whole (content bytes) s =
            .ok (node, c) ∧
          stop = (content bytes).length - c.rest.length ∧ t = c.state := by
  unfold read
  cases bytes with
  | nil => simp
  | cons first tail =>
    cases options.tooLong (first :: tail) with
    | some fault => simp
    | none =>
      simp only [List.isEmpty_cons, Bool.false_eq_true, if_false]
      cases document b ⟨options.maxDepth, (content (first :: tail)).length⟩ options.whole
          (content (first :: tail)) s with
      | error e => simp
      | ok p =>
        obtain ⟨n, c⟩ := p
        simp only [Prod.mk.injEq, Except.ok.injEq, ne_eq, reduceCtorEq, not_false_eq_true, true_and]
        constructor
        · rintro ⟨⟨rfl, rfl⟩, rfl⟩
          exact ⟨c, ⟨rfl, rfl⟩, rfl, rfl⟩
        · rintro ⟨c, ⟨rfl, rfl⟩, rfl, rfl⟩
          exact ⟨⟨rfl, rfl⟩, rfl⟩

/-- Without the question what follows it, a document that is read is read up to its own end. -/
theorem read_front (h : b.read options bytes s = (.ok (node, stop), t)) :
    ∃ front ≤ stop, b.read { options with whole := false } bytes s = (.ok (node, front), t) := by
  obtain ⟨hne, hlong, c, hdocument, rfl, rfl⟩ := read_eq_ok_iff.1 h
  cases hwhole : options.whole with
  | false =>
    rw [hwhole] at hdocument
    exact ⟨_, Nat.le_refl _, read_eq_ok_iff.2 ⟨hne, hlong, c, hdocument, rfl, rfl⟩⟩
  | true =>
    rw [hwhole] at hdocument
    obtain ⟨c', hvalue, -, rfl⟩ := document_whole_eq_ok_iff.1 hdocument
    refine ⟨_, Nat.sub_le .., read_eq_ok_iff.2 ⟨hne, hlong, c', ?_, rfl, rfl⟩⟩
    exact (document_eq_value ..).trans hvalue

/-- What was read is read again from its own bytes, as the whole of them or with more behind it. -/
theorem read_back_to_back (hwhole : options.whole = false) (hlength : options.maxLength = none)
    (h : b.read options bytes s = (.ok (node, stop), t)) :
    stop ≤ bytes.length ∧
    b.read { options with whole := true } (bytes.take stop) s = (.ok (node, stop), t) ∧
    ∀ x : List UInt8,
      ((∃ d, b.scalar (.number (.ofDouble d)) s = some (node, t)) → NumberLiteral.Stops x) →
        b.read options (bytes.take stop ++ x) s = (.ok (node, stop), t) := by
  have unbounded (text : List UInt8) : options.tooLong text = none := by
    rw [ReadOptions.tooLong, hlength]
  obtain ⟨-, -, c, hdocument, rfl, rfl⟩ := read_eq_ok_iff.1 h
  rw [hwhole] at hdocument
  obtain ⟨front, hfront, htakes⟩ := document_exact (c := ⟨content bytes, s⟩) hdocument
  replace hfront : content bytes = front ++ c.rest := hfront
  have hstop : (content bytes).length - c.rest.length = front.length := by
    rw [hfront, List.length_append, Nat.add_sub_cancel]
  have hbegins : front <+: bytes := .trans ⟨c.rest, hfront.symm⟩ (content_isPrefix bytes)
  have hzero : 0 ∉ front := fun hmem => by
    refine zero_not_mem_content bytes ?_
    rw [hfront]
    exact List.mem_append_left _ hmem
  rw [hstop, ← List.prefix_iff_eq_take.1 hbegins]
  refine ⟨hbegins.length_le, ?_, fun x hx => ?_⟩
  · have hnothing : MayFollow (skipBlanks front) [] := fun _ => NumberLiteral.stops_nil
    have hagain := htakes.read_append hnothing (Nat.le_refl _)
    rw [List.append_nil, document_eq_value] at hagain
    refine read_eq_ok_iff.2 ⟨htakes.ne_nil, unbounded _, ⟨[], c.state⟩, ?_, ?_, rfl⟩
    · rw [content_eq_self hzero]
      exact document_whole_eq_ok_iff.2 ⟨_, hagain, rfl, rfl⟩
    · rw [content_eq_self hzero]
      rfl
  · have hnumber : MayFollow (skipBlanks front) (content x) := by
      refine fun hfirst => (hx ?_).content
      rw [document_eq_value] at hdocument
      refine exists_scalar_of_value hdocument ?_
      show BeginsNumber (skipBlanks (content bytes))
      rw [hfront]
      exact hfirst.skipBlanks_append _
    refine read_eq_ok_iff.2 ⟨List.append_ne_nil_of_left_ne_nil htakes.ne_nil _, unbounded _,
      ⟨content x, c.state⟩, ?_, ?_, rfl⟩
    · rw [hwhole, content_append hzero]
      refine htakes.read_append hnumber ?_
      rw [List.length_append]
      exact Nat.le_add_right ..
    · rw [content_append hzero]
      exact (Nat.sub_eq_of_eq_add List.length_append).symm

end Builder

namespace Session

theorem parse_eq_ok_iff {options : ReadOptions} {bytes : List UInt8} {s t : Session}
    {root : NodeId} {stop : Nat} :
    s.parse options bytes = (.ok (root, stop), t) ↔
      s.store.read options bytes = (.ok (root, stop), t.store) ∧ t.last = s.last := by
  obtain ⟨store, last⟩ := t
  unfold parse
  rcases s.store.read options bytes with ⟨e | ⟨root', stop'⟩, store'⟩
  · simp
  · simp only [Prod.mk.injEq, Except.ok.injEq, mk.injEq]
    exact ⟨fun h => ⟨⟨h.1, h.2.1⟩, h.2.2.symm⟩, fun h => ⟨h.1.1, h.1.2, h.2.symm⟩⟩

/-- **Values can be read back to back.** The end that is told of a document is exact: the bytes
before it, alone or with any bytes behind them, are read as the same document with the same end and
with the same effect. Only a number must not go on behind its end. -/
theorem parse_back_to_back {options : ReadOptions} (hwhole : options.whole = false)
    (hlength : options.maxLength = none) {bytes : List UInt8} {s t : Session} {root : NodeId}
    {stop : Nat} (h : s.parse options bytes = (.ok (root, stop), t)) :
    stop ≤ bytes.length ∧
    (∀ whole, s.parse { options with whole } (bytes.take stop) = (.ok (root, stop), t)) ∧
    ∀ x : List UInt8, (t.store.kind? root = some .number → NumberLiteral.Stops x) →
      s.parse options (bytes.take stop ++ x) = (.ok (root, stop), t) := by
  obtain ⟨hread, hlast⟩ := parse_eq_ok_iff.1 h
  obtain ⟨hle, hself, hmore⟩ := Builder.read_back_to_back hwhole hlength hread
  have hbehind : ∀ x : List UInt8, (t.store.kind? root = some .number → NumberLiteral.Stops x) →
      s.parse options (bytes.take stop ++ x) = (.ok (root, stop), t) := by
    intro x hx
    refine parse_eq_ok_iff.2 ⟨hmore x ?_, hlast⟩
    rintro ⟨d, hscalar⟩
    obtain ⟨-, hroot, hstore⟩ := Store.create?_eq_some_iff.1 hscalar
    refine hx ?_
    rw [hstore, hroot, Store.kind?, Store.content?, Store.getElem?_adopt, if_pos rfl]
    rfl
  refine ⟨hle, fun whole => ?_, hbehind⟩
  cases whole with
  | true => exact parse_eq_ok_iff.2 ⟨hself, hlast⟩
  | false =>
    have hfront := hbehind [] fun _ => NumberLiteral.stops_nil
    rw [List.append_nil] at hfront
    rw [← hwhole]
    exact hfront

/-- The mark of an exponent without digits is not read with the number before it, and what follows
the number is not read either. -/
theorem parse_back_to_back_unread_mark :
    let s := empty (some ⟨[], some 1, .unlimited⟩)
    let bytes := Utf8.encode " -1.5e, [2]"
    ∃ t : Session, s.parse {} bytes = (.ok (0, 5), t) ∧
      s.parse { whole := true } (Utf8.encode " -1.5") = (.ok (0, 5), t) ∧
      s.parse {} (Utf8.encode " -1.5[2]") = (.ok (0, 5), t) := by
  intro s bytes
  have hresult : (s.parse {} bytes).1 = .ok (0, 5) := by decide +kernel
  have hparse : s.parse {} bytes = (.ok (0, 5), (s.parse {} bytes).2) := Prod.ext hresult rfl
  obtain ⟨-, hself, hmore⟩ := parse_back_to_back rfl rfl hparse
  exact ⟨_, hparse, hself true, hmore (Utf8.encode "[2]") fun _ => by
    intro first hfirst
    cases hfirst
    decide⟩

end Session

end LinkedJson
