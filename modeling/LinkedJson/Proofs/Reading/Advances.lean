import LinkedJson.Proofs.Reading.Extents
import LinkedJson.Proofs.Reading.Traces
import LinkedJson.Proofs.Reading.ViablePrefixes

/-!
# What a reading spends

Every node is paid for with text. If a node costs two bytes, then a value leaves no more than one
byte to be paid: a scalar has a byte of its own, a container has its two brackets, and each item but
the first has the comma before it. So the nodes that are taken while a text is read, over whatever
builder, are at most one more than half of its bytes (`Builder.read_demand`).

The same induction finds the values that are begun in the order of the text (`Sorted`), each of them
behind the first byte of the one before.
-/

namespace LinkedJson

open Ascii Reading

/-! ## Faults of literals -/

theorem StringLiteral.ne_nodeRefused_of_read {text rest : List UInt8} {fault : ReadFault}
    (h : read text = .error (fault, rest)) : fault ≠ .nodeRefused := by
  rintro rfl
  unfold read at h
  split at h
  · cases h
  · split at h
    · cases h
    · split at h
      · cases h
      · split at h
        · rename_i hbody
          cases h
          rw [bodyBytes_eq_unescape] at hbody
          have hinside := insideString_of_unescape hbody
          revert hinside
          unfold FaultCode.InsideString
          decide
        · split at h <;> cases h

theorem NumberLiteral.ne_nodeRefused_of_read {text rest : List UInt8} {fault : ReadFault}
    (h : read text = .error (fault, rest)) : fault ≠ .nodeRefused := by
  rintro rfl
  unfold read at h
  split at h <;> cases h

/-! ## What builders spend -/

namespace Builder

variable {σ ν κ : Type}

/-- The measure counts the nodes that a builder takes. -/
structure Counts (b : Builder σ ν κ) (size : σ → Nat) : Prop where
  scalar : ∀ {v s n s'}, b.scalar v s = some (n, s') → size s' = size s + 1
  array : ∀ {k s n s'}, b.array k s = some (n, s') → size s' = size s + 1
  object : ∀ {k s n s'}, b.object k s = some (n, s') → size s' = size s + 1
  push : ∀ k n s, size (b.push k n s).2 = size s
  rename : ∀ name n s, size (b.rename name n s).2 = size s
  abandon : ∀ k s, size (b.abandon k s) = size s
  discard : ∀ n s, size (b.discard n s) = size s

/-- In some state the builder refuses a node. -/
def Refuses (b : Builder σ ν κ) : Prop :=
  ∃ s, (∃ v, b.scalar v s = none) ∨ (∃ k, b.array k s = none) ∨ ∃ k, b.object k s = none

end Builder

/-- The values of a trace stand in a text, each begun behind the one before. -/
structure Traced.Sorted {σ : Type} (text : List UInt8) (t : Traced σ) : Prop where
  descending : t.begun.Pairwise fun e e' => e'.2.length < e.2.length
  suffix : ∀ e ∈ t.begun, e.2 <:+ text

/-- The offset of a value that was begun. -/
def offsetOf (text : List UInt8) (e : Nat × List UInt8) : Nat :=
  text.length - e.2.length

theorem Traced.Sorted.offsets {σ : Type} {text : List UInt8} {t : Traced σ} (h : t.Sorted text) :
    t.begun.Pairwise fun e e' => offsetOf text e < offsetOf text e' := by
  refine h.descending.imp_of_mem fun {e e'} he he' hlt => ?_
  have := (h.suffix e he).length_le
  unfold offsetOf
  omega

theorem Traced.Sorted.congr {σ : Type} {text : List UInt8} {t t' : Traced σ} (h : t.Sorted text)
    (hbegun : t'.begun = t.begun) : t'.Sorted text where
  descending := hbegun ▸ h.descending
  suffix := hbegun ▸ h.suffix

namespace Reading

variable {σ ν κ α : Type}

/-- All values of the trace were begun before the cursor. -/
structure InOrder (text : List UInt8) (c : Cursor (Traced σ)) : Prop where
  sorted : c.state.Sorted text
  behind : ∀ e ∈ c.state.begun, c.rest.length < e.2.length
  suffix : c.rest <:+ text

namespace InOrder

variable {text : List UInt8} {c : Cursor (Traced σ)} {rest : List UInt8} {t : Traced σ}

/-- Going on without a new value. -/
theorem goOn (h : InOrder text c) (hbegun : t.begun = c.state.begun) (hrest : rest <:+ c.rest) :
    InOrder text ⟨rest, t⟩ := by
  refine ⟨h.sorted.congr hbegun, fun e he => ?_, hrest.trans h.suffix⟩
  rw [hbegun] at he
  exact hrest.length_le.trans_lt (h.behind e he)

/-- A value that is begun is behind all others. -/
theorem sorted_beginning (h : InOrder text c) (around : Nat) :
    (beginning around c).state.Sorted text := by
  refine ⟨List.pairwise_append.2 ⟨h.sorted.descending, List.pairwise_singleton .., ?_⟩, ?_⟩
  · intro e he e' he'
    cases List.mem_singleton.1 he'
    exact h.behind e he
  · intro e he
    rcases List.mem_append.1 he with he | he
    · exact h.sorted.suffix e he
    · cases List.mem_singleton.1 he
      exact h.suffix

/-- Behind the first byte of a value that is begun the next one may be. -/
theorem beyond (h : InOrder text c) {around : Nat} {word : List UInt8} (hne : word ≠ [])
    (hrest : c.rest = word ++ rest) (hbegun : t.begun = (beginning around c).state.begun) :
    InOrder text ⟨rest, t⟩ := by
  have hlt : rest.length < c.rest.length := by
    rw [hrest, List.length_append]
    exact Nat.lt_add_of_pos_left (List.length_pos_iff.2 hne)
  refine ⟨(h.sorted_beginning around).congr hbegun, fun e he => ?_,
    .trans ⟨word, hrest.symm⟩ h.suffix⟩
  rw [hbegun] at he
  rcases List.mem_append.1 he with he | he
  · exact hlt.trans (h.behind e he)
  · cases List.mem_singleton.1 he
    exact hlt

end InOrder

/-- The bytes that are left, and two for each node. -/
def weight (size : σ → Nat) (c : Cursor (Traced σ)) : Nat :=
  2 * size c.state.state + c.rest.length

/-- A reading that began at a cursor ends with one byte to be paid at most, beside `k`, or fails
with none. -/
inductive Advances (b : Builder σ ν κ) (size : σ → Nat) (text : List UInt8) (k : Nat)
    (c : Cursor (Traced σ)) : Reading (Traced σ) (α × Cursor (Traced σ)) → Prop
  | ok {a : α} {c' : Cursor (Traced σ)} : InOrder text c' →
    weight size c' ≤ weight size c + k + 1 → Advances b size text k c (.ok (a, c'))
  | error {fault : ReadFault} {c' : Cursor (Traced σ)} : c'.state.Sorted text →
    2 * size c'.state.state ≤ weight size c + k → (fault = .nodeRefused → b.Refuses) →
      Advances b size text k c (.error (fault, c'))

/-- The reader does so wherever it begins. -/
def Advancing (b : Builder σ ν κ) (size : σ → Nat) (text : List UInt8)
    (read : Reader (Traced σ) α) : Prop :=
  ∀ ⦃c⦄, InOrder text c → Advances b size text 0 c (read c)

variable {b : Builder σ ν κ} {size : σ → Nat} {text : List UInt8} {j k : Nat}
  {c c₁ : Cursor (Traced σ)}
  {x : Reading (Traced σ) (α × Cursor (Traced σ))}

/-- What is spent before a reading adds to what it spends. -/
theorem Advances.of_weight (h : Advances b size text j c₁ x)
    (hweight : weight size c₁ + j ≤ weight size c + k) : Advances b size text k c x := by
  cases h with
  | ok hc' hle => exact .ok hc' (by omega)
  | error hsorted hle hrefused => exact .error hsorted (by omega) hrefused

theorem skipBlanks_suffix (text : List UInt8) : skipBlanks text <:+ text :=
  List.dropWhile_suffix isBlank

theorem suffix_of_afterByte? {byte : UInt8} {text rest : List UInt8}
    (h : afterByte? byte text = some rest) :
    rest <:+ text ∧ text.length = rest.length + 1 := by
  rw [afterByte?_eq_some_iff.1 h]
  exact ⟨List.suffix_cons .., List.length_cons⟩

/-- Where no scalar is read over a builder that refuses nothing, the fault is in the text. -/
theorem ne_nodeRefused_of_atom {fault : ReadFault} {c' : Cursor Unit}
    (h : atom (.idle Unit) ⟨text, ()⟩ = .error (fault, c')) : fault ≠ .nodeRefused := by
  unfold atom at h
  split at h
  · cases h
  · cases h
  · cases h
  · split at h
    · cases h
      decide
    · split at h
      · rcases hread : StringLiteral.read text with ⟨fault', rest⟩ | p
        · simp only [hread] at h
          cases h
          exact StringLiteral.ne_nodeRefused_of_read hread
        · simp only [hread] at h
          cases h
      · split at h
        · rcases hread : NumberLiteral.read text with ⟨fault', rest⟩ | p
          · simp only [hread] at h
            cases h
            exact NumberLiteral.ne_nodeRefused_of_read hread
          · simp only [hread] at h
            cases h
        · cases h
          decide

section

variable (laws : b.Counts size)
include laws

/-- A scalar has a byte of its own. -/
theorem atom_advances (hc : InOrder text c) (around : Nat) :
    Advances b size text 0 c (atom b.traced (beginning around c)) := by
  rcases h : atom b.traced (beginning around c) with ⟨fault, c'⟩ | ⟨node, c'⟩
  · rcases atom_cases c.rest with ⟨v, rest, hatom⟩ | ⟨fault', rest, hatom⟩
    · have hscalar := (hatom b.traced (beginning around c).state).symm.trans h
      unfold scalar at hscalar
      split at hscalar
      · rename_i hnone
        cases hscalar
        refine .error (hc.sorted_beginning around) ?_ fun _ =>
          ⟨c.state.state, .inl ⟨v, Option.map_eq_none_iff.1 hnone⟩⟩
        exact Nat.le_add_right ..
      · cases hscalar
    · cases (hatom b.traced (beginning around c).state).symm.trans h
      refine .error (hc.sorted_beginning around) (Nat.le_add_right ..) fun hrefused => ?_
      exact absurd hrefused (ne_nodeRefused_of_atom (hatom (.idle Unit) ()))
  · obtain ⟨word, hword, htakes⟩ := atom_exact h (m := 0)
    obtain ⟨v, -, hscalar⟩ := atom_eq_ok_iff.1 h
    obtain ⟨s, hs, hstate⟩ := Builder.exists_of_map_move hscalar
    have hlength : c'.rest.length < c.rest.length := by
      have hpos := List.length_pos_iff.2 htakes.ne_nil
      have hlength : c.rest.length = (word ++ c'.rest).length := congrArg List.length hword
      rw [List.length_append] at hlength
      omega
    have hsize : size c'.state.state = size c.state.state + 1 := by
      rw [hstate]
      exact laws.scalar hs
    refine .ok (hc.beyond (t := c'.state) htakes.ne_nil hword (by rw [hstate]; rfl)) ?_
    unfold weight
    omega

/-- A reader of items may go on behind each comma, which pays for the item behind it. -/
theorem separated_advances {item : Reader (Traced σ) ν} (hitem : Advancing b size text item)
    (commas : Nat) (children : κ) {c : Cursor (Traced σ)} (hc : InOrder text c) :
    Advances b size text 0 c (separated b.traced item commas children c) := by
  have hstep := hitem hc
  rcases hread : item c with ⟨fault, c'⟩ | ⟨node, c'⟩
  · rw [hread] at hstep
    rw [separated_of_error hread]
    cases hstep with
    | error hsorted hle hrefused =>
      refine .error (hsorted.congr rfl) ?_ hrefused
      exact (congrArg (2 * ·) (laws.abandon children c'.state.state)).trans_le hle
  · rw [hread] at hstep
    rw [separated_of_ok hread]
    cases hstep with
    | ok hc' hle =>
      have hpush := laws.push children node c'.state.state
      have hskip := skipBlanks_suffix c'.rest
      have hlength := hskip.length_le
      have last : Advances b size text 0 c (.ok ((b.traced.push children node c'.state).1,
          ⟨skipBlanks c'.rest, (b.traced.push children node c'.state).2⟩)) := by
        refine .ok (hc'.goOn rfl hskip) ?_
        show 2 * size (b.push children node c'.state.state).2 + (skipBlanks c'.rest).length ≤ _
        unfold weight at hle ⊢
        omega
      cases commas with
      | zero => exact last
      | succ commas =>
        cases hcomma : afterByte? comma (skipBlanks c'.rest) with
        | none => exact last
        | some rest =>
          obtain ⟨hrest, hcount⟩ := suffix_of_afterByte? hcomma
          have hskip' := skipBlanks_suffix rest
          have hlength' := hskip'.length_le
          have hinside := hc'.goOn (t := (b.traced.push children node c'.state).2) rfl
            (hskip'.trans (hrest.trans hskip))
          refine (separated_advances hitem commas _ hinside).of_weight ?_
          show 2 * size (b.push children node c'.state.state).2 + (skipBlanks rest).length + 0 ≤ _
          unfold weight at hle ⊢
          omega

end

/-- A step that takes a node for a container. -/
structure TakesNode (b : Builder σ ν κ) (size : σ → Nat)
    (take : κ → Traced σ → Option (ν × Traced σ)) : Prop where
  taken : ∀ {k t node t'}, take k t = some (node, t') →
    t'.begun = t.begun ∧ size t'.state = size t.state + 1
  refused : ∀ {k t}, take k t = none → b.Refuses

section

variable (laws : b.Counts size)
include laws

theorem takesNode_array : TakesNode b size b.traced.array where
  taken h := by
    obtain ⟨s, hs, rfl⟩ := Builder.exists_of_map_move h
    exact ⟨rfl, laws.array hs⟩
  refused h := ⟨_, .inr (.inl ⟨_, Option.map_eq_none_iff.1 h⟩)⟩

theorem takesNode_object : TakesNode b size b.traced.object where
  taken h := by
    obtain ⟨s, hs, rfl⟩ := Builder.exists_of_map_move h
    exact ⟨rfl, laws.object hs⟩
  refused h := ⟨_, .inr (.inr ⟨_, Option.map_eq_none_iff.1 h⟩)⟩

variable {close : UInt8} {unterminated : ReadFault} {take : κ → Traced σ → Option (ν × Traced σ)}
  (htake : TakesNode b size take) (hunterminated : unterminated ≠ .nodeRefused)
include htake hunterminated

theorem closing_advances (start : List UInt8) (children : κ) (hc : InOrder text c) :
    Advances b size text 0 c (closing b.traced close unterminated take start children c) := by
  have habandon : 2 * size (b.traced.abandon children c.state).state ≤ weight size c + 0 := by
    have := laws.abandon children c.state.state
    unfold weight
    show 2 * size (b.abandon children c.state.state) ≤ _
    omega
  have hsorted : (b.traced.abandon children c.state).Sorted text := hc.sorted.congr rfl
  unfold closing
  cases hclose : afterByte? close c.rest with
  | none => exact .error hsorted habandon fun h => absurd h hunterminated
  | some rest =>
    obtain ⟨hrest, hcount⟩ := suffix_of_afterByte? hclose
    cases hnode : take children c.state with
    | none => exact .error hsorted habandon fun _ => htake.refused hnode
    | some p =>
      obtain ⟨hbegun, hsize⟩ := htake.taken hnode
      refine .ok (hc.goOn hbegun hrest) ?_
      unfold weight
      show 2 * size p.2.state + rest.length ≤ _
      omega

/-- Behind its opening bracket a container has that byte to spend as well. -/
theorem container_advances {limits : ReadLimits} {item : Reader (Traced σ) ν}
    (hitem : Advancing b size text item) (start : List UInt8) (hc : InOrder text c) :
    Advances b size text 1 c (container b.traced limits close unterminated take item start c) := by
  have hskip := skipBlanks_suffix c.rest
  have hinside : InOrder text c.skipBlanks := hc.goOn rfl hskip
  have hweight : weight size c.skipBlanks ≤ weight size c :=
    Nat.add_le_add_left hskip.length_le _
  by_cases hclose : (afterByte? close (skipBlanks c.rest)).isSome = true
  · rw [container_of_closed hclose]
    exact (closing_advances laws htake hunterminated start _ hinside).of_weight (by omega)
  · rw [container_of_open hclose]
    have hitems := separated_advances laws hitem limits.maxCommas b.traced.childless hinside
    generalize separated b.traced item limits.maxCommas b.traced.childless c.skipBlanks = x
      at hitems ⊢
    cases hitems with
    | error hsorted hle hrefused => exact .error hsorted (by omega) hrefused
    | ok hc₁ hle =>
      exact (closing_advances laws htake hunterminated start _ hc₁).of_weight (by omega)

end

section

variable (laws : b.Counts size)
include laws

theorem member_advances {read : Reader (Traced σ) ν} (hread : Advancing b size text read) :
    Advancing b size text (member b.traced read) := by
  intro c hc
  have here {fault : ReadFault} {rest : List UInt8} (h : fault ≠ .nodeRefused) :
      Advances b size text 0 c
        (.error (fault, ⟨rest, c.state⟩) : Reading (Traced σ) (ν × Cursor (Traced σ))) :=
    .error hc.sorted (Nat.le_add_right ..) fun hrefused => absurd hrefused h
  unfold member
  split
  · exact here (by decide)
  · rcases hname : StringLiteral.read c.rest with ⟨fault, rest⟩ | ⟨name, rest⟩
    · exact here (StringLiteral.ne_nodeRefused_of_read hname)
    · simp only [ofScan, Cursor.skipBlanks, bind, Except.bind]
      cases hcolon : afterByte? colon (skipBlanks rest) with
      | none => exact here (by decide)
      | some rest' =>
        obtain ⟨literal, hliteral, -⟩ := StringLiteral.eq_append_of_read hname
        have hsuffix : skipBlanks rest' <:+ c.rest :=
          (skipBlanks_suffix rest').trans ((suffix_of_afterByte? hcolon).1.trans
            ((skipBlanks_suffix rest).trans ⟨literal, hliteral.symm⟩))
        have hinside : InOrder text ⟨skipBlanks rest', c.state⟩ := hc.goOn rfl hsuffix
        have hvalue := hread hinside
        simp only
        generalize read ⟨skipBlanks rest', c.state⟩ = x at hvalue ⊢
        have hweight : weight size ⟨skipBlanks rest', c.state⟩ ≤ weight size c :=
          Nat.add_le_add_left hsuffix.length_le _
        cases hvalue with
        | error hsorted hle hrefused => exact .error hsorted (by omega) hrefused
        | @ok node c' hc' hle =>
          refine .ok (hc'.goOn rfl List.suffix_rfl) ?_
          have hrename := laws.rename name node c'.state.state
          have hsame : weight size ⟨c'.rest, (b.traced.rename name node c'.state).2⟩ =
              weight size c' := congrArg (2 * · + c'.rest.length) hrename
          exact hsame.trans_le (by omega)

/-- A container is paid for with its two brackets. -/
theorem valueWith_advances {limits : ReadLimits} (inner : Option (Reader (Traced σ) ν))
    (hinner : ∀ read ∈ inner, Advancing b size text read) (hc : InOrder text c) (around : Nat) :
    Advances b size text 0 c (valueWith b.traced limits inner (beginning around c)) := by
  have opened {bracket : UInt8} {rest : List UInt8} (h : c.rest = bracket :: rest) :
      InOrder text ⟨rest, (beginning around c).state⟩ ∧
        weight size ⟨rest, (beginning around c).state⟩ + 1 ≤ weight size c + 0 := by
    have hlength := congrArg List.length h
    rw [List.length_cons] at hlength
    refine ⟨hc.beyond (List.cons_ne_nil bracket []) h rfl, ?_⟩
    show 2 * size c.state.state + rest.length + 1 ≤ 2 * size c.state.state + c.rest.length + 0
    omega
  unfold valueWith
  split
  · exact atom_advances laws hc around
  · refine .error (hc.sorted_beginning around) (Nat.le_add_right ..) fun h => by cases h
  · rename_i rest inner hopen
    obtain ⟨hinside, hweight⟩ := opened (afterByte?_eq_some_iff.1 hopen)
    exact (container_advances laws (takesNode_array laws) (by decide) (hinner inner rfl) _
      hinside).of_weight hweight
  · rename_i rest inner _ hopen
    obtain ⟨hinside, hweight⟩ := opened (afterByte?_eq_some_iff.1 hopen)
    exact (container_advances laws (takesNode_object laws) (by decide)
      (member_advances laws (hinner inner rfl)) _ hinside).of_weight hweight

theorem tracing_advances (limits : ReadLimits) (levels around : Nat) :
    Advancing b size text (tracing b limits levels around) := by
  induction levels generalizing around with
  | zero =>
    intro c hc
    exact valueWith_advances laws none (fun read h => nomatch h) hc around
  | succ levels ih =>
    intro c hc
    refine valueWith_advances laws (some _) (fun read h => ?_) hc around
    cases h
    exact ih (around + 1)

theorem tracingDocument_advances (limits : ReadLimits) (whole : Bool) (text : List UInt8) (s : σ) :
    Advances b size text 0 ⟨text, .start s⟩
      (tracingDocument b limits whole text (.start s)) := by
  have hstart : InOrder text ⟨text, Traced.start s⟩ :=
    ⟨⟨List.Pairwise.nil, fun _ h => nomatch h⟩, (fun _ h => nomatch h), List.suffix_rfl⟩
  have hskip := skipBlanks_suffix text
  have hvalue := (tracing_advances laws limits limits.maxDepth.toNat 0
    (hstart.goOn rfl hskip)).of_weight (c := ⟨text, .start s⟩) (k := 0)
    (Nat.add_le_add_left hskip.length_le _)
  unfold tracingDocument
  change Advances b size text 0 ⟨text, .start s⟩
    (tracing b limits limits.maxDepth.toNat 0 ⟨skipBlanks text, .start s⟩ >>= _)
  generalize tracing b limits limits.maxDepth.toNat 0 ⟨skipBlanks text, .start s⟩ = x at hvalue ⊢
  cases hvalue with
  | error hsorted hle hrefused => exact .error hsorted hle hrefused
  | @ok node c' hc' hle =>
    cases whole with
    | false => exact .ok hc' hle
    | true =>
      have hskip' := skipBlanks_suffix c'.rest
      have hlength := hskip'.length_le
      by_cases hrest : skipBlanks c'.rest = []
      · simp only [bind, Except.bind, if_true, Cursor.skipBlanks, hrest, List.isEmpty_nil]
        refine .ok (hc'.goOn rfl List.nil_suffix) ((Nat.add_le_add_left ?_ _).trans hle)
        exact Nat.zero_le _
      · -- what follows the value is a byte that was not spent
        have hpos := List.length_pos_iff.2 hrest
        have hdiscard := laws.discard node c'.state.state
        simp only [bind, Except.bind, if_true, Cursor.skipBlanks, List.isEmpty_iff, hrest, if_false]
        refine .error (hc'.sorted.congr rfl) ?_ fun h => by cases h
        show 2 * size (b.discard node c'.state.state) ≤ _
        unfold weight at hle ⊢
        omega

end

end Reading

/-! ## Documents -/

namespace ReadFault

theorem code_eq_allocationFailure_iff {fault : ReadFault} :
    fault.code = .allocationFailure ↔ fault = .nodeRefused := by
  cases fault <;> simp [code]

end ReadFault

namespace Builder

variable {σ ν κ : Type} {b : Builder σ ν κ} {size : σ → Nat} {options : ReadOptions}
  {bytes : List UInt8} {s : σ}

/-- **Every node is paid for with two bytes**, but for one byte at the end: so much a reading has
taken when it ends, wherever it ends. It is refused no node by a builder that refuses none. -/
theorem read_demand (laws : b.Counts size) (options : ReadOptions) (bytes : List UInt8) (s : σ) :
    (b.trace options bytes s).Sorted (content bytes) ∧
    2 * size (b.read options bytes s).2 ≤ 2 * size s + (content bytes).length + 1 ∧
    (∀ node stop t, b.read options bytes s = (.ok (node, stop), t) →
      2 * size t ≤ 2 * size s + stop + 1) ∧
    ∀ e, (b.read options bytes s).1 = .error e → e.fault.code = .allocationFailure →
      b.Refuses := by
  rcases b.trace_cases options bytes s with ⟨fault, hfault, hunread⟩ | hreading
  · obtain ⟨htrace, hread⟩ := hunread options.maxDepth
    change b.trace options bytes s = _ at htrace
    change b.read options bytes s = _ at hread
    rw [htrace, hread]
    refine ⟨⟨List.Pairwise.nil, fun _ h => nomatch h⟩, Nat.le_succ_of_le (Nat.le_add_right ..),
      (fun _ _ _ h => nomatch h), ?_⟩
    rintro _ ⟨⟩ hcode
    rcases hfault with rfl | hlong
    · cases hcode
    · cases (ReadOptions.code_of_tooLong hlong).symm.trans hcode
  · obtain ⟨htrace, hread⟩ := hreading options.maxDepth
    change b.trace options bytes s = _ at htrace
    change b.read options bytes s = _ at hread
    have hadvances := tracingDocument_advances laws ⟨options.maxDepth, (content bytes).length⟩
      options.whole (content bytes) s
    rw [htrace, hread]
    generalize tracingDocument b ⟨options.maxDepth, (content bytes).length⟩ options.whole
      (content bytes) (.start s) = x at hadvances ⊢
    cases hadvances with
    | @ok node c hc hle =>
      have hrest := hc.suffix.length_le
      replace hle : 2 * size c.state.state + c.rest.length ≤
        2 * size s + (content bytes).length + 1 := hle
      refine ⟨hc.sorted, ?_, fun node' stop t h => ?_, fun e h => by cases h⟩
      · show 2 * size c.state.state ≤ _
        omega
      · cases h
        show 2 * size c.state.state ≤ 2 * size s + ((content bytes).length - c.rest.length) + 1
        omega
    | @error fault c hsorted hle hrefused =>
      refine ⟨hsorted, Nat.le_succ_of_le hle, (fun _ _ _ h => nomatch h), fun e h hcode => ?_⟩
      cases h
      exact hrefused (ReadFault.code_eq_allocationFailure_iff.1 hcode)

end Builder

end LinkedJson
