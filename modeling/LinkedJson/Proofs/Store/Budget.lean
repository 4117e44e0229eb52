import LinkedJson.Proofs.Reading.Completions
import LinkedJson.Session

/-!
# Reading under a limit on nodes

A document is read over an arena as it is read without one, until the arena refuses a node.
`Together` runs three readings of one text side by side: under an arena, without an arena, and the
one that only notes which values are complete. As long as the arena has a node for every value that
is complete, the first two differ in nothing but their arenas (`Lockstep`). A reading that is refused
a node fails at the value that was noted when its room was used up, whatever the other two still do.

So reading under a limit is reading without one, cut at the limit: `Session.parse_limited`.
-/

namespace LinkedJson

/-! ## Stores that differ in their arenas -/

namespace Store

/-- The same cells over another arena. -/
def withArena (arena : Option Arena) (s : Store) : Store :=
  { s with arena }

theorem push_withArena (chain : OpenChain) (id : NodeId) (arena : Option Arena) (s : Store) :
    chain.push id (s.withArena arena) =
      ((chain.push id s).1, (chain.push id s).2.withArena arena) := by
  unfold OpenChain.push
  cases chain.last <;> rfl

/-- What is released does not depend on the arena. -/
theorem exists_releaseTo_withArena (n : Nat) (head : Option NodeId) (arena : Option Arena)
    (s : Store) :
    ∃ arena', (s.withArena arena).releaseTo n head = (s.releaseTo n head).withArena arena' := by
  induction n generalizing head arena s with
  | zero => exact ⟨arena, rfl⟩
  | succ n ih =>
    cases head with
    | none => exact ⟨arena, rfl⟩
    | some id =>
      obtain ⟨below, hbelow⟩ := ih (s.child? id) arena s
      obtain ⟨after, hafter⟩ := ih (s.next? id) ((below.map fun a =>
        { a with live := a.live.erase id })) ((s.releaseTo n (s.child? id)).clear id)
      refine ⟨after, ?_⟩
      change releaseTo n (s.next? id) ((releaseTo n (s.child? id) (s.withArena arena)).clear id) = _
      rw [hbelow]
      exact hafter

theorem exists_releaseAll_withArena (head : Option NodeId) (arena : Option Arena) (s : Store) :
    ∃ arena', (s.withArena arena).releaseAll head = (s.releaseAll head).withArena arena' :=
  exists_releaseTo_withArena s.cells.size head arena s

theorem size_push (chain : OpenChain) (id : NodeId) (s : Store) :
    (chain.push id s).2.cells.size = s.cells.size := by
  unfold OpenChain.push
  cases chain.last with
  | none => rfl
  | some last => simp [link, setNext, setPrev]

theorem size_releaseTo (n : Nat) (head : Option NodeId) (s : Store) :
    (s.releaseTo n head).cells.size = s.cells.size := by
  induction n generalizing head s with
  | zero => rfl
  | succ n ih =>
    cases head with
    | none => rfl
    | some id =>
      unfold releaseTo
      rw [ih, clear, Array.size_modify, ih]

end Store

namespace Reading

open Ascii

/-! ## Three readings in step -/

/-- The store `s` has no arena, and `b` is the arena `a` after it gave a node for each of the values
that are complete. The store holds these nodes behind its first `base` cells. -/
structure Lockstep (a : Arena) (base : Nat) (s : Store) (b : Arena) (log : Completed) : Prop where
  heap : s.arena = none
  size : s.cells.size = base + log.length
  limit : b.maxNodes = a.maxNodes
  live : b.live.length = a.live.length + log.length
  room : ∀ M ∈ a.maxNodes, log.length ≤ (M - a.live.length).toNat

/-- How a reading under the arena `a` ends, the same reading without an arena, and the one that notes
what is complete. -/
inductive Together (a : Arena) (base : Nat) {α : Type} :
    Reading Store (α × Cursor Store) → Reading Store (α × Cursor Store) →
      Reading Completed (Unit × Cursor Completed) → Prop
  | read {x : α} {rest : List UInt8} {s : Store} {b : Arena} {log : Completed} :
      Lockstep a base s b log →
        Together a base (.ok (x, ⟨rest, s.withArena (some b)⟩)) (.ok (x, ⟨rest, s⟩))
          (.ok ((), ⟨rest, log⟩))
  | failed {fault : ReadFault} {rest : List UInt8} {s : Store} {arena : Option Arena}
      {log : Completed} :
      s.cells.size = base + log.length →
        (∀ M ∈ a.maxNodes, log.length ≤ (M - a.live.length).toNat) →
          Together a base (.error (fault, ⟨rest, s.withArena arena⟩)) (.error (fault, ⟨rest, s⟩))
            (.error (fault, ⟨rest, log⟩))
  | cut {M : Int} {start : List UInt8} {t : Store} {heap : Reading Store (α × Cursor Store)}
      {noting : Reading Completed (Unit × Cursor Completed)} :
      M ∈ a.maxNodes → (completed noting)[(M - a.live.length).toNat]? = some start →
        Together a base (.error (.nodeRefused, ⟨start, t⟩)) heap noting

/-- The readers of values end together wherever they begin in step. -/
def Beside {α : Type} (a : Arena) (base : Nat) (read : Reader Store α)
    (count : Reader Completed Unit) : Prop :=
  ∀ (rest : List UInt8) {s : Store} {b : Arena} {log : Completed}, Lockstep a base s b log →
    Together a base (read ⟨rest, s.withArena (some b)⟩) (read ⟨rest, s⟩) (count ⟨rest, log⟩)

variable {a b : Arena} {base : Nat} {s : Store} {log : Completed}

theorem Lockstep.start (s : Store) (hs : s.arena = none) (a : Arena) :
    Lockstep a s.cells.size s a [] :=
  ⟨hs, rfl, rfl, rfl, fun _ _ => Nat.zero_le _⟩

theorem Lockstep.of_cells {t : Store} (h : Lockstep a base s b log) (harena : t.arena = s.arena)
    (hsize : t.cells.size = s.cells.size) : Lockstep a base t b log :=
  ⟨harena.trans h.heap, hsize.trans h.size, h.limit, h.live, h.room⟩

/-- Whatever was noted at a place is still noted there. -/
theorem Together.cut_of_noted {α : Type} {M : Int} {start : List UInt8} {t : Store}
    {heap : Reading Store (α × Cursor Store)} {noting : Reading Completed (Unit × Cursor Completed)}
    {l : Completed} (hM : M ∈ a.maxNodes) (hstart : l[(M - a.live.length).toNat]? = some start)
    (hnoted : l <+: completed noting) :
    Together a base (.error (.nodeRefused, ⟨start, t⟩)) heap noting := by
  obtain ⟨more, hmore⟩ := hnoted
  refine .cut hM ?_
  rw [← hmore, List.getElem?_append_left (List.getElem?_eq_some_iff.1 hstart).1]
  exact hstart

/-- The arena has room for one more complete value, or its room is used up. -/
theorem Lockstep.room_cases (h : Lockstep a base s b log) :
    (b.isFull = true ∧ ∃ M ∈ a.maxNodes, (M - a.live.length).toNat = log.length) ∨
      b.isFull = false ∧ ∀ M ∈ a.maxNodes, log.length + 1 ≤ (M - a.live.length).toNat := by
  have hlength := h.live
  unfold Arena.isFull
  rw [h.limit]
  cases hmax : a.maxNodes with
  | none => exact .inr ⟨rfl, fun M hM => nomatch hM⟩
  | some M =>
    have hroom := h.room M hmax
    by_cases hfull : M ≤ b.live.length
    · exact .inl ⟨decide_eq_true hfull, M, rfl, by omega⟩
    · refine .inr ⟨decide_eq_false hfull, fun M' hM' => ?_⟩
      cases hM'
      omega

/-- The arena gives a node for one more complete value, or its room is used up. -/
theorem Lockstep.create?_arena (h : Lockstep a base s b log) (content : Content)
    (start : List UInt8) :
    ((s.withArena (some b)).create? content = none ∧
      ∃ M ∈ a.maxNodes, (M - a.live.length).toNat = log.length) ∨
    ∃ b', (s.withArena (some b)).create? content =
        some (s.cells.size, (s.adopt (.standalone content)).withArena (some b')) ∧
      Lockstep a base (s.adopt (.standalone content)) b' (log ++ [start]) := by
  have hcreate : (s.withArena (some b)).create? content =
      if b.isFull then none
      else some (s.cells.size, (s.adopt (.standalone content)).withArena
        (some { b with live := s.cells.size :: b.live })) := by
    unfold Store.create? Store.take?
    change Option.map _ (if b.isFull then none else _) = _
    cases b.isFull <;> rfl
  rw [hcreate]
  rcases h.room_cases with ⟨hfull, hroom⟩ | ⟨hfull, hroom⟩
  · rw [hfull]
    exact .inl ⟨rfl, hroom⟩
  · rw [hfull]
    refine .inr ⟨_, rfl, ?_, ?_, h.limit, ?_, ?_⟩
    · rw [Store.adopt, h.heap]
      rfl
    · rw [Store.size_adopt, h.size, List.length_append, List.length_singleton, Nat.add_assoc]
    · rw [List.length_cons, h.live, List.length_append, List.length_singleton, Nat.add_assoc]
    · rwa [List.length_append, List.length_singleton]

/-- Giving back the children of an open container is no step of its own. -/
theorem Together.abandoned {α : Type} {fault : ReadFault} {arena : Option Arena}
    (hsize : s.cells.size = base + log.length)
    (hroom : ∀ M ∈ a.maxNodes, log.length ≤ (M - a.live.length).toNat) (head : Option NodeId)
    (rest : List UInt8) :
    Together a base (α := α) (.error (fault, ⟨rest, (s.withArena arena).releaseAll head⟩))
      (.error (fault, ⟨rest, s.releaseAll head⟩)) (.error (fault, ⟨rest, log⟩)) := by
  obtain ⟨arena', h⟩ := Store.exists_releaseAll_withArena head arena s
  rw [h]
  exact .failed ((Store.size_releaseTo ..).trans hsize) hroom

/-! ## The readers -/

theorem scalar_together (start rest : List UInt8) (v : Scalar) (h : Lockstep a base s b log) :
    Together a base (scalar Store.builder start v ⟨rest, s.withArena (some b)⟩)
      (scalar Store.builder start v ⟨rest, s⟩)
      (noted start (scalar (.idle Completed) start v ⟨rest, log⟩)) := by
  rcases h.create?_arena (.scalar v) start with ⟨hnone, M, hM, hlength⟩ | ⟨b', hsome, h'⟩
  · simp only [scalar, Store.builder, hnone]
    refine .cut hM ?_
    rw [hlength]
    exact List.getElem?_concat_length
  · simp only [scalar, Store.builder, hsome, Store.create?_of_heap h.heap]
    exact .read h'

theorem atom_together (text : List UInt8) (h : Lockstep a base s b log) :
    Together a base (atom Store.builder ⟨text, s.withArena (some b)⟩) (atom Store.builder ⟨text, s⟩)
      (noted text (atom (.idle Completed) ⟨text, log⟩)) := by
  rcases atom_cases text with ⟨v, rest, hatom⟩ | ⟨fault, rest, hatom⟩
  · rw [hatom, hatom, hatom]
    exact scalar_together text rest v h
  · rw [hatom, hatom, hatom]
    exact .failed h.size h.room

/-- What was noted of an item is noted of the items. -/
theorem completed_prefix_separated {count : Reader Completed Unit} (hcount : Notes count)
    (commas : Nat) (c : Cursor Completed) :
    completed (count c) <+: completed (separated (.idle Completed) count commas () c) := by
  cases h : count c with
  | error e =>
    rw [separated_of_error h]
    exact List.prefix_refl _
  | ok p =>
    rw [separated_of_ok h]
    cases commas with
    | zero => exact List.prefix_refl _
    | succ commas =>
      cases afterByte? comma (skipBlanks p.2.rest) with
      | none => exact List.prefix_refl _
      | some rest =>
        exact outcome_notes_iff.1 (separated_leads idle_effects hcount
          (c := ⟨skipBlanks rest, p.2.state⟩) (List.prefix_refl _))

theorem separated_together {item : Reader Store NodeId} {count : Reader Completed Unit}
    (hitem : Beside a base item count) (hcount : Notes count) (commas : Nat) (children : OpenChain)
    (rest : List UInt8) {s : Store} {b : Arena} {log : Completed} (h : Lockstep a base s b log) :
    Together a base (separated Store.builder item commas children ⟨rest, s.withArena (some b)⟩)
      (separated Store.builder item commas children ⟨rest, s⟩)
      (separated (.idle Completed) count commas () ⟨rest, log⟩) := by
  have hstep := hitem rest h
  have hnoted := completed_prefix_separated hcount commas ⟨rest, log⟩
  generalize hlimited : item ⟨rest, s.withArena (some b)⟩ = limited at hstep
  generalize hheap : item ⟨rest, s⟩ = heap at hstep
  generalize hnoting : count ⟨rest, log⟩ = noting at hstep hnoted
  cases hstep with
  | @read id after s' b' log' h' =>
    have hpush := Store.push_withArena children id (some b') s'
    have hpushed : Lockstep a base (children.push id s').2 b' log' :=
      h'.of_cells (children.arena_push id s') (Store.size_push ..)
    rw [separated_of_ok hlimited, separated_of_ok hheap, separated_of_ok hnoting]
    simp only [Store.builder, Builder.idle, hpush]
    cases commas with
    | zero => exact .read hpushed
    | succ commas =>
      cases afterByte? comma (skipBlanks after) with
      | none => exact .read hpushed
      | some rest => exact separated_together hitem hcount commas _ (skipBlanks rest) hpushed
  | failed hsize hroom =>
    rw [separated_of_error hlimited, separated_of_error hheap, separated_of_error hnoting]
    exact .abandoned hsize hroom children.head _
  | cut hM hstart =>
    rw [separated_of_error hlimited]
    exact .cut_of_noted hM hstart hnoted

theorem closing_together {close : UInt8} {unterminated : ReadFault} {content : OpenChain → Content}
    (start : List UInt8) (children : OpenChain) (rest : List UInt8) (h : Lockstep a base s b log) :
    Together a base
      (closing Store.builder close unterminated (fun children => Store.create? (content children))
        start children ⟨rest, s.withArena (some b)⟩)
      (closing Store.builder close unterminated (fun children => Store.create? (content children))
        start children ⟨rest, s⟩)
      (noted start (closing (.idle Completed) close unterminated (Builder.idle Completed).array
        start () ⟨rest, log⟩)) := by
  unfold closing
  cases afterByte? close rest with
  | none => exact .abandoned h.size h.room children.head rest
  | some rest =>
    rcases h.create?_arena (content children) start with ⟨hnone, M, hM, hlength⟩ | ⟨b', hsome, h'⟩
    · simp only [hnone]
      refine .cut hM ?_
      rw [hlength]
      exact List.getElem?_concat_length
    · simp only [hsome, Store.create?_of_heap h.heap]
      exact .read h'

/-- What was noted of the items is noted of their container. -/
theorem completed_prefix_noted_closing {close : UInt8} {unterminated : ReadFault}
    (start : List UInt8) (noting : Reading Completed (Unit × Cursor Completed)) :
    completed noting <+: completed (noted start (noting >>= fun p =>
      closing (.idle Completed) close unterminated (Builder.idle Completed).array start p.1 p.2)) := by
  cases noting with
  | error e => exact List.prefix_refl _
  | ok p =>
    have hclosing : p.2.state <+: completed (closing (.idle Completed) close unterminated
        (Builder.idle Completed).array start p.1 p.2) :=
      outcome_notes_iff.1 (closing_leads idle_effects idle_effects.array start
        (List.prefix_refl p.2.state))
    exact hclosing.trans (prefix_noted ..)

theorem container_together {limits : ReadLimits} {close : UInt8} {unterminated : ReadFault}
    {content : OpenChain → Content} {item : Reader Store NodeId} {count : Reader Completed Unit}
    (hitem : Beside a base item count) (hcount : Notes count) (start rest : List UInt8)
    (h : Lockstep a base s b log) :
    Together a base
      (container Store.builder limits close unterminated
        (fun children => Store.create? (content children)) item start ⟨rest, s.withArena (some b)⟩)
      (container Store.builder limits close unterminated
        (fun children => Store.create? (content children)) item start ⟨rest, s⟩)
      (noted start (container (.idle Completed) limits close unterminated
        (Builder.idle Completed).array count start ⟨rest, log⟩)) := by
  by_cases hclose : (afterByte? close (skipBlanks rest)).isSome = true
  · rw [container_of_closed hclose, container_of_closed hclose, container_of_closed hclose]
    exact closing_together start .empty (skipBlanks rest) h
  · have hitems : Together a base
        (separated Store.builder item limits.maxCommas Store.builder.childless
          (Cursor.skipBlanks ⟨rest, s.withArena (some b)⟩))
        (separated Store.builder item limits.maxCommas Store.builder.childless
          (Cursor.skipBlanks ⟨rest, s⟩))
        (separated (.idle Completed) count limits.maxCommas (Builder.idle Completed).childless
          (Cursor.skipBlanks ⟨rest, log⟩)) :=
      separated_together hitem hcount limits.maxCommas .empty (skipBlanks rest) h
    rw [container_of_open hclose, container_of_open hclose, container_of_open hclose]
    generalize separated Store.builder item limits.maxCommas Store.builder.childless
      (Cursor.skipBlanks ⟨rest, s.withArena (some b)⟩) = limited at hitems ⊢
    generalize separated Store.builder item limits.maxCommas Store.builder.childless
      (Cursor.skipBlanks ⟨rest, s⟩) = heap at hitems ⊢
    generalize separated (.idle Completed) count limits.maxCommas
      (Builder.idle Completed).childless (Cursor.skipBlanks ⟨rest, log⟩) = noting at hitems ⊢
    cases hitems with
    | @read children after _ _ _ h' => exact closing_together start children after h'
    | failed hsize hroom => exact .failed hsize hroom
    | cut hM hstart =>
      exact .cut_of_noted hM hstart (completed_prefix_noted_closing start noting)

theorem member_together {item : Reader Store NodeId} {count : Reader Completed Unit}
    (hitem : Beside a base item count) :
    Beside a base (member Store.builder item) (member (.idle Completed) count) := by
  intro rest s b log h
  unfold member
  simp only
  cases (afterByte? quote rest).isNone with
  | true => exact .failed h.size h.room
  | false =>
    cases StringLiteral.read rest with
    | error e => exact .failed h.size h.room
    | ok p =>
      simp only [ofScan, Cursor.skipBlanks, bind, Except.bind, Bool.false_eq_true, if_false]
      cases afterByte? colon (skipBlanks p.2) with
      | none => exact .failed h.size h.room
      | some rest =>
        have hvalue := hitem (skipBlanks rest) h
        simp only
        generalize item ⟨skipBlanks rest, s.withArena (some b)⟩ = limited at hvalue
        generalize item ⟨skipBlanks rest, s⟩ = heap at hvalue
        generalize count ⟨skipBlanks rest, log⟩ = noting at hvalue
        cases hvalue with
        | @read id after s' b' log' h' =>
          exact .read (s := s'.setLabel id _) (h'.of_cells rfl (Store.size_modify ..))
        | failed hsize hroom => exact .failed hsize hroom
        | cut hM hstart =>
          refine .cut_of_noted hM hstart ?_
          cases noting with
          | error e => exact List.prefix_refl _
          | ok p => exact List.prefix_refl _

theorem valueWith_together (limits : ReadLimits)
    (inner : Option (Reader Store NodeId × Reader Completed Unit))
    (hinner : ∀ p ∈ inner, Beside a base p.1 p.2 ∧ Notes p.2) :
    Beside a base (valueWith Store.builder limits (inner.map Prod.fst))
      (fun c => noted c.rest (valueWith (.idle Completed) limits (inner.map Prod.snd) c)) := by
  intro rest s b log h
  unfold valueWith
  simp only
  cases afterByte? openBracket rest with
  | some inside =>
    cases inner with
    | none => exact .failed h.size h.room
    | some p =>
      obtain ⟨hitem, hcount⟩ := hinner p rfl
      exact container_together hitem hcount rest inside h
  | none =>
    cases afterByte? openBrace rest with
    | some inside =>
      cases inner with
      | none => exact .failed h.size h.room
      | some p =>
        obtain ⟨hitem, hcount⟩ := hinner p rfl
        exact container_together (member_together hitem) (member_leads idle_effects hcount) rest
          inside h
    | none => exact atom_together rest h

theorem value_together (limits : ReadLimits) (levels : Nat) :
    Beside a base (value Store.builder limits levels) (completing limits levels) := by
  induction levels with
  | zero => exact valueWith_together limits none fun p h => nomatch h
  | succ levels ih =>
    refine valueWith_together limits (some (_, _)) fun p h => ?_
    cases h
    exact ⟨ih, notes_completing limits levels⟩

end Reading

/-! ## Documents -/

namespace Store

/-- Under an arena a document is read as it is read without one, with a node for each value that is
complete; or the arena refuses a node to the value that is complete when its room is used up. -/
theorem read_withArena (options : ReadOptions) (bytes : List UInt8) (s : Store)
    (hs : s.arena = none) (a : Arena) :
    (((s.withArena (some a)).read options bytes).1 = (s.read options bytes).1 ∧
      ((s.withArena (some a)).read options bytes).2.cells = (s.read options bytes).2.cells ∧
      (s.read options bytes).2.cells.size =
        s.cells.size + (Document.completions options bytes).length ∧
      ∀ M ∈ a.maxNodes,
        (Document.completions options bytes).length ≤ (M - a.live.length).toNat) ∨
    ∃ M ∈ a.maxNodes, ∃ offset,
      (Document.completions options bytes)[(M - a.live.length).toNat]? = some offset ∧
      ((s.withArena (some a)).read options bytes).1 =
        .error ⟨.nodeRefused, .ofOffset bytes offset⟩ := by
  unfold read Builder.read Document.completions
  cases bytes.isEmpty with
  | true => exact .inl ⟨rfl, rfl, rfl, fun _ _ => Nat.zero_le _⟩
  | false =>
    cases options.tooLong bytes with
    | some fault => exact .inl ⟨rfl, rfl, rfl, fun _ _ => Nat.zero_le _⟩
    | none =>
      have hvalue := Reading.value_together ⟨options.maxDepth, (content bytes).length⟩
        options.maxDepth.toNat (skipBlanks (content bytes)) (.start s hs a)
      simp only [Bool.false_eq_true, if_false, Option.isSome_none, Bool.or_self, Reading.document,
        Cursor.skipBlanks, List.length_map, List.getElem?_map]
      generalize Reading.value builder ⟨options.maxDepth, (content bytes).length⟩
        options.maxDepth.toNat ⟨skipBlanks (content bytes), s.withArena (some a)⟩ = limited
        at hvalue ⊢
      generalize Reading.value builder ⟨options.maxDepth, (content bytes).length⟩
        options.maxDepth.toNat ⟨skipBlanks (content bytes), s⟩ = heap at hvalue ⊢
      generalize Reading.completing ⟨options.maxDepth, (content bytes).length⟩
        options.maxDepth.toNat ⟨skipBlanks (content bytes), []⟩ = noting at hvalue ⊢
      cases hvalue with
      | @read root rest t b log h =>
        cases options.whole with
        | false => exact .inl ⟨rfl, rfl, h.size, h.room⟩
        | true =>
          simp only [bind, Except.bind, if_true]
          by_cases hrest : skipBlanks rest = []
          · simp only [hrest, List.isEmpty_nil, if_true]
            exact .inl ⟨trivial, rfl, h.size, h.room⟩
          · simp only [List.isEmpty_iff, hrest, if_false]
            obtain ⟨arena, hrelease⟩ := exists_releaseAll_withArena (some root) (some b) t
            refine .inl ⟨trivial, ?_, ?_, h.room⟩
            · change (releaseAll (some root) (t.withArena (some b))).cells = _
              rw [hrelease]
              rfl
            · exact (size_releaseTo ..).trans h.size
      | failed hsize hroom => exact .inl ⟨rfl, rfl, hsize, hroom⟩
      | @cut M start t _ _ hM hstart =>
        refine .inr ⟨M, hM, (content bytes).length - start.length, ?_, rfl⟩
        rw [hstart]
        rfl

/-- Without an arena, reading a document makes one node for each value that is complete. -/
theorem size_read (options : ReadOptions) (bytes : List UInt8) (s : Store) (hs : s.arena = none) :
    (s.read options bytes).2.cells.size =
      s.cells.size + (Document.completions options bytes).length := by
  rcases s.read_withArena options bytes hs ⟨[], none, .unlimited⟩ with
    ⟨-, -, hsize, -⟩ | ⟨M, hM, -⟩
  · exact hsize
  · cases hM

end Store

namespace Session

/-- Only a failure is reported; the result and the store are those of the store. -/
theorem parse_eq (options : ReadOptions) (bytes : List UInt8) (s : Session) :
    (s.parse options bytes).1 = (s.store.read options bytes).1 ∧
      (s.parse options bytes).2.store = (s.store.read options bytes).2 := by
  unfold parse
  rcases s.store.read options bytes with ⟨e | ⟨root, stop⟩, t⟩ <;> exact ⟨rfl, rfl⟩

/-- **Reading under a limit on nodes is reading without one, cut at the limit.** If the limit leaves
a node for each value that is complete before the reading without an arena ends, or if no value is,
the result is the same, and so is every cell. Otherwise the value that is complete when no node is
left is refused one, and the failure is at its first byte. -/
theorem parse_limited (options : ReadOptions) (bytes : List UInt8) (cells : Array Cell)
    (a : Arena) (last : Option FaultCode) :
    let limited := Session.parse options bytes ⟨⟨cells, some a⟩, last⟩
    let heap := Session.parse options bytes ⟨⟨cells, none⟩, last⟩
    let completions := Document.completions options bytes
    ((completions = [] ∨ ∀ M ∈ a.maxNodes, a.live.length + completions.length ≤ M) →
      limited.1 = heap.1 ∧ limited.2.store.cells = heap.2.store.cells) ∧
    ∀ M ∈ a.maxNodes, completions ≠ [] → M < a.live.length + completions.length →
      ∃ offset, completions[(M - a.live.length).toNat]? = some offset ∧
        limited.1 = .error ⟨.nodeRefused, .ofOffset bytes offset⟩ := by
  intro limited heap completions
  obtain ⟨hlimited, hlimitedStore⟩ := parse_eq options bytes ⟨⟨cells, some a⟩, last⟩
  obtain ⟨hheap, hheapStore⟩ := parse_eq options bytes ⟨⟨cells, none⟩, last⟩
  simp only [limited, heap, hlimited, hlimitedStore, hheap, hheapStore]
  rcases Store.read_withArena options bytes ⟨cells, none⟩ rfl a with
    ⟨hresult, hcells, -, hroom⟩ | ⟨M, hM, offset, hoffset, hresult⟩
  · refine ⟨fun _ => ⟨hresult, hcells⟩, fun M hM hne hlt => ?_⟩
    have hlength : completions.length ≤ (M - a.live.length).toNat := hroom M hM
    have hpos : 0 < completions.length := List.length_pos_iff.2 hne
    omega
  · have hlength : (M - a.live.length).toNat < completions.length :=
      (List.getElem?_eq_some_iff.1 hoffset).1
    refine ⟨fun h => ?_, fun M' hM' _ _ => ?_⟩
    · rcases h with hnil | hle
      · rw [hnil] at hlength
        exact absurd hlength (Nat.not_lt_zero _)
      · have := hle M hM
        omega
    · cases Option.mem_unique hM hM'
      exact ⟨offset, hoffset, hresult⟩

/-- With three nodes the array is read; with one, its second item is refused a node. -/
theorem parse_limited_two_items :
    (Session.parse {} (Utf8.encode "[true, []]") ⟨⟨#[], some ⟨[], some 3, .unlimited⟩⟩, none⟩).1 =
        (Session.parse {} (Utf8.encode "[true, []]") ⟨⟨#[], none⟩, none⟩).1 ∧
      (Session.parse {} (Utf8.encode "[true, []]") ⟨⟨#[], none⟩, none⟩).1 = .ok (2, 10) ∧
      (Session.parse {} (Utf8.encode "[true, []]")
          ⟨⟨#[], some ⟨[], some 1, .unlimited⟩⟩, none⟩).1 =
        .error ⟨.nodeRefused, .ofOffset (Utf8.encode "[true, []]") 7⟩ := by
  have hcompletions : Document.completions {} (Utf8.encode "[true, []]") = [1, 7, 0] := by
    decide +kernel
  have henough := (parse_limited {} (Utf8.encode "[true, []]") #[] ⟨[], some 3, .unlimited⟩ none).1
  have hshort := (parse_limited {} (Utf8.encode "[true, []]") #[] ⟨[], some 1, .unlimited⟩ none).2
  simp only [hcompletions] at henough hshort
  refine ⟨(henough (.inr ?_)).1, by decide +kernel, ?_⟩
  · intro M hM
    cases hM
    decide
  · obtain ⟨offset, hoffset, hresult⟩ := hshort 1 rfl (by decide) (by decide)
    cases hoffset
    exact hresult

/-- A limit below zero refuses every node, but a text without a complete value asks for none: it
fails as it does without a limit. -/
theorem parse_limited_below_zero :
    ¬ ∀ (options : ReadOptions) (bytes : List UInt8) (cells : Array Cell) (a : Arena)
      (last : Option FaultCode), ∀ M ∈ a.maxNodes,
      let limited := Session.parse options bytes ⟨⟨cells, some a⟩, last⟩
      let heap := Session.parse options bytes ⟨⟨cells, none⟩, last⟩
      let completions := Document.completions options bytes
      (a.live.length + completions.length ≤ M →
        limited.1 = heap.1 ∧ limited.2.store.cells = heap.2.store.cells) ∧
      (M < a.live.length + completions.length →
        ∃ offset, completions[(M - a.live.length).toNat]? = some offset ∧
          limited.1 = .error ⟨.nodeRefused, .ofOffset bytes offset⟩) := by
  intro h
  have hcompletions : Document.completions {} (Utf8.encode "x") = [] := by decide +kernel
  have hresult : (Session.parse {} (Utf8.encode "x")
      ⟨⟨#[], some ⟨[], some (-1), .unlimited⟩⟩, none⟩).1 =
      .error ⟨.unexpectedCharacter, .ofOffset (Utf8.encode "x") 0⟩ := by
    decide +kernel
  obtain ⟨offset, -, hrefused⟩ :=
    (h {} (Utf8.encode "x") #[] ⟨[], some (-1), .unlimited⟩ none (-1) rfl).2
      (by rw [hcompletions]; decide)
  rw [hresult] at hrefused
  cases hrefused

end Session

end LinkedJson
