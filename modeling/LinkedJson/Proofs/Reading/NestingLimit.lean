import LinkedJson.Proofs.Store.NodeDemand

/-!
# Where a limit on nesting cuts

Two readings of one text that differ in the limit on nesting go the same way up to the first opening
bracket that the lower limit does not allow. There the one with the lower limit fails, and nothing
else tells the two apart: if there is no such bracket, they end alike (`Session.parse_narrowed`).

`Narrowed` compares how the two end, by the trace of the one with the higher limit. Each reader has
one lemma, for every builder. Behind the cut nothing is known of the higher limit but that what it
had begun stays begun, which holds of every reader (`Traced.Continues`).
-/

namespace LinkedJson

open Ascii

/-- The text begins with the bracket of a container. -/
def opens (text : List UInt8) : Bool :=
  text.head? = some openBracket ∨ text.head? = some openBrace

/-- What was begun stays begun. -/
def Traced.Continues {σ : Type} (t t' : Traced σ) : Prop :=
  t.begun <+: t'.begun

/-- No container was begun with `limit` or more around it. -/
def Shallow (limit : Nat) (begun : List (Nat × List UInt8)) : Prop :=
  ∀ e ∈ begun, opens e.2 = true → e.1 < limit

theorem Builder.keeps_continues {σ ν κ : Type} (b : Builder σ ν κ) :
    b.Keeps Traced.Continues where
  refl _ := List.prefix_rfl
  trans := List.IsPrefix.trans
  move _ := List.prefix_rfl
  begin _ _ _ := List.prefix_append ..

namespace Reading

variable {σ ν κ α β : Type} {b : Builder σ ν κ} {narrow wide : Int} {m : Nat}

/-- How readings end under a limit on nesting and under a higher one: in the same way, with no
container begun that the lower limit does not allow, or the one with the lower limit fails at the
first such container. -/
inductive Narrowed (narrow : Int) : Reading (Traced σ) (α × Cursor (Traced σ)) →
    Reading (Traced σ) (α × Cursor (Traced σ)) → Prop
  | same {x : Reading (Traced σ) (α × Cursor (Traced σ))} :
      Shallow narrow.toNat (final x).begun → Narrowed narrow x x
  | cut {x : Reading (Traced σ) (α × Cursor (Traced σ))} {before : List (Nat × List UInt8)}
      {start : List UInt8} {t : Traced σ} : Shallow narrow.toNat before → opens start = true →
      t.begun = before ++ [(narrow.toNat, start)] → t.Continues (final x) →
        Narrowed narrow (.error (.nestingTooDeep narrow, ⟨start, t⟩)) x

/-- The readers end so wherever they begin. -/
def Narrowing (narrow : Int) (read read' : Reader (Traced σ) α) : Prop :=
  ∀ c, Shallow narrow.toNat c.state.begun → Narrowed narrow (read c) (read' c)

/-- Steps that begin nothing more end in the same way. -/
theorem narrowed_of_begun_eq {x : Reading (Traced σ) (α × Cursor (Traced σ))} {t : Traced σ}
    (ht : Shallow narrow.toNat t.begun) (hx : (final x).begun = t.begun) : Narrowed narrow x x := by
  refine .same ?_
  rwa [hx]

/-- Steps one after another. The second one under the higher limit may go on behind a cut. -/
theorem Narrowed.bind {x x' : Reading (Traced σ) (α × Cursor (Traced σ))}
    {f f' : α × Cursor (Traced σ) → Reading (Traced σ) (β × Cursor (Traced σ))}
    (h : Narrowed narrow x x')
    (hf : ∀ a (c : Cursor (Traced σ)), Shallow narrow.toNat c.state.begun →
      Narrowed narrow (f (a, c)) (f' (a, c)))
    (hcontinues : ∀ a (c : Cursor (Traced σ)), c.state.Continues (final (f' (a, c)))) :
    Narrowed narrow (x >>= f) (x' >>= f') := by
  cases h with
  | same hshallow =>
    rcases x with e | ⟨a, c⟩
    · exact .same hshallow
    · exact hf a c hshallow
  | cut hbefore hopens hbegun hgrown =>
    refine .cut hbefore hopens hbegun ?_
    rcases x' with e | ⟨a, c⟩
    · exact hgrown
    · exact hgrown.trans (hcontinues a c)

/-! ## The readers, one by one -/

theorem atom_begun (c : Cursor (Traced σ)) : (final (atom b.traced c)).begun = c.state.begun := by
  obtain ⟨text, t⟩ := c
  rcases atom_cases text with ⟨v, rest, h⟩ | ⟨fault, rest, h⟩
  · rw [h]
    simp only [scalar, Builder.traced]
    cases b.scalar v t.state <;> rfl
  · rw [h]
    rfl

/-- What is read behind an item comes later in the trace. -/
theorem separated_continues {item : Reader (Traced σ) ν} (hitem : Retains Traced.Continues item)
    (commas : Nat) (children : κ) (c : Cursor (Traced σ)) :
    (final (item c)).Continues (final (separated b.traced item commas children c)) := by
  rcases hread : item c with ⟨fault, c'⟩ | ⟨node, c'⟩
  · rw [separated_of_error hread]
    exact List.prefix_rfl
  · rw [separated_of_ok hread]
    cases commas with
    | zero => exact List.prefix_rfl
    | succ commas =>
      cases afterByte? comma (skipBlanks c'.rest) with
      | none => exact List.prefix_rfl
      | some rest =>
        refine outcome_iff_final.1 (?_ : Outcome c'.state (fun t t' _ => t.Continues t')
          Traced.Continues _)
        exact separated_leads (effects_of_keeps b.keeps_continues) hitem List.prefix_rfl

theorem separated_narrowed {item item' : Reader (Traced σ) ν} (hitem : Narrowing narrow item item')
    (hcontinues : Retains Traced.Continues item') (commas : Nat) (children : κ)
    {c : Cursor (Traced σ)} (hc : Shallow narrow.toNat c.state.begun) :
    Narrowed narrow (separated b.traced item commas children c)
      (separated b.traced item' commas children c) := by
  have hstep := hitem c hc
  have hbehind := separated_continues (b := b) hcontinues commas children c
  generalize hread : item c = x at hstep
  generalize hread' : item' c = x' at hstep hbehind
  cases hstep with
  | cut hbefore hopens hbegun hgrown =>
    rw [separated_of_error hread]
    exact .cut hbefore hopens hbegun (hgrown.trans hbehind)
  | same hshallow =>
    rcases x with ⟨fault, c'⟩ | ⟨node, c'⟩
    · rw [separated_of_error hread, separated_of_error hread']
      exact .same hshallow
    · rw [separated_of_ok hread, separated_of_ok hread']
      cases commas with
      | zero => exact .same hshallow
      | succ commas =>
        cases afterByte? comma (skipBlanks c'.rest) with
        | none => exact .same hshallow
        | some rest => exact separated_narrowed hitem hcontinues commas _ hshallow

variable {close : UInt8} {unterminated : ReadFault} {take : κ → Traced σ → Option (ν × Traced σ)}

theorem closing_begun (htake : ∀ {k t node t'}, take k t = some (node, t') → t'.begun = t.begun)
    (start : List UInt8) (children : κ) (c : Cursor (Traced σ)) :
    (final (closing b.traced close unterminated take start children c)).begun =
      c.state.begun := by
  unfold closing
  cases afterByte? close c.rest with
  | none => rfl
  | some rest =>
    cases hnode : take children c.state with
    | none => rfl
    | some p => exact htake hnode

theorem container_narrowed
    (htake : ∀ {k t node t'}, take k t = some (node, t') → t'.begun = t.begun)
    {item item' : Reader (Traced σ) ν} (hitem : Narrowing narrow item item')
    (hcontinues : Retains Traced.Continues item') (start : List UInt8) {c : Cursor (Traced σ)}
    (hc : Shallow narrow.toNat c.state.begun) :
    Narrowed narrow (container b.traced ⟨narrow, m⟩ close unterminated take item start c)
      (container b.traced ⟨wide, m⟩ close unterminated take item' start c) := by
  by_cases hclose : (afterByte? close (skipBlanks c.rest)).isSome = true
  · rw [container_of_closed hclose, container_of_closed hclose]
    exact narrowed_of_begun_eq hc (closing_begun htake start b.childless c.skipBlanks)
  · rw [container_of_open hclose, container_of_open hclose]
    have hitems := separated_narrowed (b := b) hitem hcontinues m b.childless
      (c := c.skipBlanks) hc
    refine hitems.bind (fun children c hc => ?_) fun children c => ?_
    · exact narrowed_of_begun_eq hc (closing_begun htake start children c)
    · rw [Traced.Continues, closing_begun htake]

theorem member_narrowed {read read' : Reader (Traced σ) ν} (hread : Narrowing narrow read read') :
    Narrowing narrow (member b.traced read) (member b.traced read') := by
  intro c hc
  unfold member
  split
  · exact .same hc
  · rcases StringLiteral.read c.rest with ⟨fault, rest⟩ | ⟨name, rest⟩
    · exact .same hc
    · simp only [ofScan, Cursor.skipBlanks, bind, Except.bind]
      cases afterByte? colon (skipBlanks rest) with
      | none => exact .same hc
      | some rest =>
        refine (hread ⟨skipBlanks rest, c.state⟩ hc).bind (fun node c hc => ?_) fun node c => ?_
        · exact .same hc
        · exact List.prefix_rfl

theorem opens_eq_true_iff {text : List UInt8} :
    opens text = true ↔ ∃ rest, afterByte? openBracket text = some rest ∨
      afterByte? openBracket text = none ∧ afterByte? openBrace text = some rest := by
  cases text with
  | nil => simp [opens, afterByte?]
  | cons first tail =>
    by_cases hbracket : first = openBracket
    · simp [opens, afterByte?, hbracket]
    · by_cases hbrace : first = openBrace
      · simp [opens, afterByte?, hbrace, show openBrace ≠ openBracket by decide]
      · simp [opens, afterByte?, hbracket, hbrace]

theorem afterByte?_of_not_opens {text : List UInt8} (h : opens text = false) :
    afterByte? openBracket text = none ∧ afterByte? openBrace text = none := by
  simp only [opens, decide_eq_false_iff_not, not_or] at h
  exact ⟨afterByte?_eq_none_iff.2 h.1, afterByte?_eq_none_iff.2 h.2⟩

theorem shallow_beginning {limit around : Nat} {c : Cursor (Traced σ)}
    (hc : Shallow limit c.state.begun) (h : opens c.rest = true → around < limit) :
    Shallow limit (beginning around c).state.begun := by
  intro e he hopens
  rcases List.mem_append.1 he with he | he
  · exact hc e he hopens
  · cases List.mem_singleton.1 he
    exact h hopens

/-- What is no container is read alike. -/
theorem atom_narrowed {limits limits' : ReadLimits} (inner inner' : Option (Reader (Traced σ) ν))
    {c : Cursor (Traced σ)} (hc : Shallow narrow.toNat c.state.begun)
    (hopens : opens c.rest = false) (around : Nat) :
    Narrowed narrow (valueWith b.traced limits inner (beginning around c))
      (valueWith b.traced limits' inner' (beginning around c)) := by
  obtain ⟨hbracket, hbrace⟩ := afterByte?_of_not_opens hopens
  have hatom (limits : ReadLimits) (inner : Option (Reader (Traced σ) ν)) :
      valueWith b.traced limits inner (beginning around c) =
        atom b.traced (beginning around c) := by
    unfold valueWith
    simp only [beginning, hbracket, hbrace]
  rw [hatom, hatom]
  refine narrowed_of_begun_eq (shallow_beginning hc fun h => ?_) (atom_begun _)
  rw [hopens] at h
  cases h

/-- Where the lower limit is reached, the bracket of a container is the place of the cut. -/
theorem valueWith_cut (inner' : Option (Reader (Traced σ) ν))
    (hcontinues : ∀ read ∈ inner', Retains Traced.Continues read) {c : Cursor (Traced σ)}
    (hc : Shallow narrow.toNat c.state.begun) :
    Narrowed narrow (valueWith b.traced ⟨narrow, m⟩ none (beginning narrow.toNat c))
      (valueWith b.traced ⟨wide, m⟩ inner' (beginning narrow.toNat c)) := by
  cases hopens : opens c.rest with
  | false => exact atom_narrowed none inner' hc hopens _
  | true =>
    have hrefused : valueWith b.traced ⟨narrow, m⟩ none (beginning narrow.toNat c) =
        .error (.nestingTooDeep narrow, beginning narrow.toNat c) := by
      obtain ⟨rest, hbracket | ⟨hbracket, hbrace⟩⟩ := opens_eq_true_iff.1 hopens
      · unfold valueWith
        simp only [beginning, hbracket]
      · unfold valueWith
        simp only [beginning, hbracket, hbrace]
    rw [hrefused]
    exact .cut hc hopens rfl (outcome_iff_final.1
      (valueWith_leads (effects_of_keeps b.keeps_continues) hcontinues _))

/-- Below the lower limit a container is begun under both. -/
theorem valueWith_narrowed {read read' : Reader (Traced σ) ν} (hread : Narrowing narrow read read')
    (hcontinues : Retains Traced.Continues read') {c : Cursor (Traced σ)}
    (hc : Shallow narrow.toNat c.state.begun) {around : Nat} (haround : around < narrow.toNat) :
    Narrowed narrow (valueWith b.traced ⟨narrow, m⟩ (some read) (beginning around c))
      (valueWith b.traced ⟨wide, m⟩ (some read') (beginning around c)) := by
  cases hopens : opens c.rest with
  | false => exact atom_narrowed _ _ hc hopens around
  | true =>
    have hinside := shallow_beginning hc fun _ => haround
    obtain ⟨rest, hbracket | ⟨hbracket, hbrace⟩⟩ := opens_eq_true_iff.1 hopens
    · unfold valueWith
      simp only [beginning, hbracket]
      exact container_narrowed Builder.begun_of_map_move hread hcontinues c.rest
        (c := ⟨rest, (beginning around c).state⟩) hinside
    · unfold valueWith
      simp only [beginning, hbracket, hbrace]
      exact container_narrowed Builder.begun_of_map_move (member_narrowed hread)
        (member_leads (effects_of_keeps b.keeps_continues) hcontinues) c.rest
        (c := ⟨rest, (beginning around c).state⟩) hinside

theorem tracing_narrowed (levels k : Nat) {around : Nat} (h : around + levels = narrow.toNat) :
    Narrowing narrow (tracing b ⟨narrow, m⟩ levels around)
      (tracing b ⟨wide, m⟩ (levels + k) around) := by
  have hcontinues (levels around : Nat) :
      Retains Traced.Continues (tracing b ⟨wide, m⟩ levels around) :=
    tracing_retains b.keeps_continues _ levels around
  induction levels generalizing around with
  | zero =>
    intro c hc
    rw [Nat.add_zero] at h
    subst h
    cases k with
    | zero => exact valueWith_cut none (fun read h => nomatch h) hc
    | succ k =>
      rw [Nat.zero_add]
      refine valueWith_cut (some _) (fun read h => ?_) hc
      cases h
      exact hcontinues k _
  | succ levels ih =>
    intro c hc
    rw [Nat.succ_add]
    exact valueWith_narrowed (ih (by omega)) (hcontinues _ _) hc (by omega)

theorem tracingDocument_narrowed (h : narrow ≤ wide) (whole : Bool) (text : List UInt8) (s : σ) :
    Narrowed narrow (tracingDocument b ⟨narrow, m⟩ whole text (.start s))
      (tracingDocument b ⟨wide, m⟩ whole text (.start s)) := by
  obtain ⟨k, hk⟩ : ∃ k, wide.toNat = narrow.toNat + k :=
    Nat.exists_eq_add_of_le (Int.toNat_le_toNat h)
  have hvalue : Narrowed narrow
      (tracing b ⟨narrow, m⟩ narrow.toNat 0 (Cursor.skipBlanks ⟨text, .start s⟩))
      (tracing b ⟨wide, m⟩ (narrow.toNat + k) 0 (Cursor.skipBlanks ⟨text, .start s⟩)) :=
    tracing_narrowed narrow.toNat k (Nat.zero_add _) _ fun _ h => nomatch h
  rw [← hk] at hvalue
  have hrest (node : ν) (c : Cursor (Traced σ)) :
      (final (if whole then
        if c.skipBlanks.rest.isEmpty then .ok (node, c.skipBlanks)
        else .error (.trailingData,
          { c.skipBlanks with state := b.traced.discard node c.skipBlanks.state })
        else .ok (node, c) : Reading (Traced σ) (ν × Cursor (Traced σ)))).begun = c.state.begun := by
    split
    · split <;> rfl
    · rfl
  refine hvalue.bind (fun node c hc => narrowed_of_begun_eq hc (hrest node c)) fun node c => ?_
  exact ⟨[], (List.append_nil _).trans (hrest node c).symm⟩

end Reading

/-! ## Documents -/

/-- A reading under the lower limit is the reading under the higher one, or it fails at the first
container that the higher limit alone allows. -/
theorem Builder.read_narrowed {σ ν κ : Type} (b : Builder σ ν κ) (options : ReadOptions)
    (bytes : List UInt8) (s : σ) {narrow wide : Int} (h : narrow ≤ wide) :
    (Shallow narrow.toNat (b.trace { options with maxDepth := wide } bytes s).begun ∧
      b.read { options with maxDepth := narrow } bytes s =
        b.read { options with maxDepth := wide } bytes s) ∨
    ∃ before start after, Shallow narrow.toNat before ∧ opens start = true ∧
      (b.trace { options with maxDepth := wide } bytes s).begun =
        before ++ (narrow.toNat, start) :: after ∧
      (b.read { options with maxDepth := narrow } bytes s).1 =
        .error ⟨.nestingTooDeep narrow,
          .ofOffset bytes (offsetOf (content bytes) (narrow.toNat, start))⟩ := by
  rcases b.trace_cases options bytes s with ⟨fault, -, hunread⟩ | hreading
  · rw [(hunread wide).1, (hunread wide).2, (hunread narrow).2]
    exact .inl ⟨(fun _ h => nomatch h), rfl⟩
  · have hnarrowed := Reading.tracingDocument_narrowed (b := b) (m := (content bytes).length) h
      options.whole (content bytes) s
    rw [(hreading wide).1, (hreading wide).2, (hreading narrow).2]
    generalize Reading.tracingDocument b ⟨narrow, (content bytes).length⟩ options.whole
      (content bytes) (.start s) = x at hnarrowed ⊢
    generalize Reading.tracingDocument b ⟨wide, (content bytes).length⟩ options.whole
      (content bytes) (.start s) = x' at hnarrowed ⊢
    cases hnarrowed with
    | same hshallow => exact .inl ⟨hshallow, rfl⟩
    | @cut _ before start t hbefore hopens hbegun hgrown =>
      obtain ⟨after, hafter⟩ := hgrown
      refine .inr ⟨before, start, after, hbefore, hopens, ?_, rfl⟩
      rw [← hafter, hbegun, List.append_assoc]
      rfl

/-- An opening bracket that a reading comes to, and the number of open containers around it. -/
structure Opening where
  offset : Nat
  around : Nat
  deriving DecidableEq

/-- The opening brackets among the values that were begun. -/
def openingsOf (text : List UInt8) (begun : List (Nat × List UInt8)) : List Opening :=
  (begun.filter fun e => opens e.2).map fun e => ⟨offsetOf text e, e.1⟩

section

variable {narrow : Int} {text start : List UInt8} {before after begun : List (Nat × List UInt8)}

theorem lt_of_mem_openingsOf (h : Shallow narrow.toNat begun) :
    ∀ o ∈ openingsOf text begun, (o.around : Int) < narrow := by
  intro o ho
  obtain ⟨e, he, rfl⟩ := List.mem_map.1 ho
  obtain ⟨hbegun, hopens⟩ := List.mem_filter.1 he
  exact Int.lt_toNat.1 (h e hbegun hopens)

/-- Behind openings that the limit allows, the next one is the first that it does not allow. -/
theorem find?_openingsOf (hbefore : Shallow narrow.toNat before) (hopens : opens start = true) :
    (openingsOf text (before ++ (narrow.toNat, start) :: after)).find?
        (fun o => narrow ≤ o.around) =
      some ⟨offsetOf text (narrow.toNat, start), narrow.toNat⟩ := by
  have hfilter : ((narrow.toNat, start) :: after).filter (fun e => opens e.2) =
      (narrow.toNat, start) :: after.filter fun e => opens e.2 :=
    List.filter_cons_of_pos hopens
  rw [openingsOf, List.filter_append, hfilter, List.map_append, List.map_cons, List.find?_append,
    List.find?_cons_of_pos (by simp)]
  refine Option.or_eq_some_iff.2 (.inr ⟨List.find?_eq_none.2 fun o ho => ?_, rfl⟩)
  have hlt := lt_of_mem_openingsOf hbefore o ho
  rw [decide_eq_true_eq]
  omega

end

namespace Session

/-- The opening brackets that reading a document comes to where a value is expected, in the order in
which it does. One that is refused for its depth is the last of them. -/
def openings (options : ReadOptions) (bytes : List UInt8) (s : Session) : List Opening :=
  openingsOf (content bytes) (Store.builder.trace options bytes s.store).begun

/-- The openings are in the order of the text, and at each of them there is a bracket. -/
theorem openings_sorted (options : ReadOptions) (bytes : List UInt8) (s : Session) :
    (s.openings options bytes).Pairwise (·.offset < ·.offset) ∧
      ∀ o ∈ s.openings options bytes,
        bytes[o.offset]? = some openBracket ∨ bytes[o.offset]? = some openBrace := by
  obtain ⟨hsorted, -⟩ := Builder.read_demand Store.builder_counts options bytes s.store
  refine ⟨List.pairwise_map.2 (hsorted.offsets.filter _), fun o ho => ?_⟩
  obtain ⟨e, he, rfl⟩ := List.mem_map.1 ho
  obtain ⟨hbegun, hopens⟩ := List.mem_filter.1 he
  obtain ⟨front, hfront⟩ := hsorted.suffix e hbegun
  obtain ⟨back, hback⟩ := content_isPrefix bytes
  have hoffset : offsetOf (content bytes) e = front.length := by
    rw [offsetOf, ← hfront, List.length_append, Nat.add_sub_cancel]
  have hbyte (bracket : UInt8) (h : e.2.head? = some bracket) :
      bytes[offsetOf (content bytes) e]? = some bracket := by
    obtain ⟨tail, htail⟩ := List.head?_eq_some_iff.1 h
    rw [hoffset, ← hback, ← hfront, htail, List.append_assoc, List.getElem?_append_right le_rfl,
      Nat.sub_self]
    rfl
  exact (of_decide_eq_true hopens).imp (hbyte _) (hbyte _)

/-- **A limit on nesting cuts a reading at one place and changes nothing else.** If the reading under
the higher limit comes to no opening bracket with as many open containers around it as the lower
limit, the two readings are the same. Otherwise the reading under the lower limit fails at the first
such bracket, and there are exactly so many containers around it. So a document that is read, or
that has a fault before that bracket, is read or at fault in the same way under both limits. -/
theorem parse_narrowed (options : ReadOptions) (bytes : List UInt8) (s : Session)
    {narrow wide : Int} (h : narrow ≤ wide) :
    let openings := s.openings { options with maxDepth := wide } bytes
    let narrowed := s.parse { options with maxDepth := narrow } bytes
    let full := s.parse { options with maxDepth := wide } bytes
    (openings.Pairwise (·.offset < ·.offset) ∧ ∀ o ∈ openings,
      bytes[o.offset]? = some openBracket ∨ bytes[o.offset]? = some openBrace) ∧
    ((∀ o ∈ openings, (o.around : Int) < narrow) → narrowed = full) ∧
    (∀ o, openings.find? (fun o => narrow ≤ o.around) = some o →
      o.around = narrow.toNat ∧
        narrowed.1 = .error ⟨.nestingTooDeep narrow, .ofOffset bytes o.offset⟩) ∧
    ((∀ e, narrowed.1 = .error e → e.fault ≠ .nestingTooDeep narrow) → narrowed = full) := by
  intro openings narrowed full
  refine ⟨openings_sorted _ bytes s, ?_⟩
  rcases Store.builder.read_narrowed options bytes s.store h with
    ⟨hshallow, hread⟩ | ⟨before, start, after, hbefore, hopens, hbegun, hread⟩
  · have hsame : narrowed = full := by
      show s.parse _ bytes = s.parse _ bytes
      unfold parse Store.read
      rw [hread]
    refine ⟨fun _ => hsame, fun o ho => ?_, fun _ => hsame⟩
    have hlt := lt_of_mem_openingsOf hshallow o (List.mem_of_find?_eq_some ho)
    have hle : narrow ≤ o.around := by simpa using List.find?_some ho
    exact absurd hle (Int.not_le.2 hlt)
  · have hresult : narrowed.1 = .error ⟨.nestingTooDeep narrow,
        .ofOffset bytes (offsetOf (content bytes) (narrow.toNat, start))⟩ :=
      (parse_eq _ bytes s).1.trans hread
    have hfirst : openings.find? (fun o => narrow ≤ o.around) =
        some ⟨offsetOf (content bytes) (narrow.toNat, start), narrow.toNat⟩ := by
      show (openingsOf _ _).find? _ = _
      rw [hbegun]
      exact find?_openingsOf hbefore hopens
    refine ⟨fun hall => ?_, fun o ho => ?_, fun hne => absurd rfl (hne _ hresult)⟩
    · have hlt := hall _ (List.mem_of_find?_eq_some hfirst)
      exact absurd hlt (Int.not_lt.2 (Int.self_le_toNat narrow))
    · cases hfirst.symm.trans ho
      exact ⟨rfl, hresult⟩

/-- Brackets in a string are no openings. Before the fault at its end the text has three, and the
lower limit is reached at the third. -/
theorem parse_narrowed_third_bracket :
    let bytes := Utf8.encode "[\"[[\", [[x"
    let s := empty none
    (2 : Int) ≤ 5 ∧
      s.openings { maxDepth := 5 } bytes = [⟨0, 0⟩, ⟨7, 1⟩, ⟨8, 2⟩] ∧
      (s.parse { maxDepth := 2 } bytes).1 = .error ⟨.nestingTooDeep 2, .ofOffset bytes 8⟩ ∧
      s.parse { maxDepth := 3 } bytes = s.parse { maxDepth := 5 } bytes := by
  intro bytes s
  have hopenings : s.openings { maxDepth := 5 } bytes = [⟨0, 0⟩, ⟨7, 1⟩, ⟨8, 2⟩] := by
    decide +kernel
  have hcut := (parse_narrowed {} bytes s (show (2 : Int) ≤ 5 by decide)).2.2.1 ⟨8, 2⟩ (by
    show List.find? _ (s.openings { maxDepth := 5 } bytes) = _
    rw [hopenings]
    decide)
  have hsame := (parse_narrowed {} bytes s (show (3 : Int) ≤ 5 by decide)).2.1 (by
    show ∀ o ∈ s.openings { maxDepth := 5 } bytes, _
    rw [hopenings]
    decide)
  exact ⟨by decide, hopenings, hcut.2, hsame⟩

end Session

end LinkedJson
