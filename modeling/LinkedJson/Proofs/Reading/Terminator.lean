import LinkedJson.Proofs.Grammar.Acceptance
import LinkedJson.Proofs.Reading.InPlace
import LinkedJson.Session

/-!
# Nothing behind a zero byte is seen

A zero byte ends a document. What stands behind it changes nothing: not what is read or why it is
not, not the line and the column of a failure, and not what is taken from the arena
(`Session.parse_terminated`). This holds of the reader in place too, which has all the bytes in
front of it, and of the readers of single literals.
-/

namespace LinkedJson

open InPlace

variable {p r : List UInt8}

theorem content_terminated (hp : 0 ∉ p) (r : List UInt8) : content (p ++ 0 :: r) = p :=
  (content_append hp (0 :: r)).trans (List.append_nil p)

/-- A position is found without a look at what follows. -/
theorem Position.ofOffset_append {offset : Nat} (h : offset ≤ p.length) (r : List UInt8) :
    ofOffset (p ++ r) offset = ofOffset p offset := by
  have htake : (p ++ r).take offset = p.take offset := List.take_append_of_le_length h
  simp only [ofOffset, Int.toNat_natCast, htake]

/-! ## Literals -/

/-- The place that the outcome of a reader of literals tells. -/
def literalOffset {α : Type} : Except (ReadFault × Int) (α × Int) → Int
  | .ok (_, stop) => stop
  | .error (_, offset) => offset

/-- From an offset on, a reader of literals and its scanner in place make the same of a text alone
and of the text with a zero byte and either of two tails behind it, and stay within the text. -/
structure EndsAtZero {α : Type} (readAt : List UInt8 → Int → Except (ReadFault × Int) (α × Int))
    (scan : List UInt8 → Nat → Except (ReadFault × Nat) (α × Nat)) (p r₁ r₂ : List UInt8)
    (start : Nat) : Prop where
  readAt_eq : ∀ r ∈ [r₁, r₂], readAt (p ++ 0 :: r) start = readAt p start
  scan_eq : ∀ bytes ∈ [p, p ++ 0 :: r₁, p ++ 0 :: r₂], outcomeAt (scan bytes start) = readAt p start
  offset_le : literalOffset (readAt p start) ≤ p.length

theorem runAt_terminated {α : Type} (read : List UInt8 → Scan (α × List UInt8)) (hp : 0 ∉ p)
    {start : Nat} (h : start ≤ p.length) (r : List UInt8) :
    Scan.runAt read (p ++ 0 :: r) start = Scan.runAt read p start := by
  have hrest : 0 ∉ p.drop start := fun hzero => hp (List.mem_of_mem_drop hzero)
  unfold Scan.runAt
  rw [textFrom_natCast, textFrom_natCast, List.drop_append_of_le_length h,
    content_terminated hrest, content_eq_self hrest]

/-- A scanner that does what a reader does wherever it begins goes no further than a zero byte. -/
theorem endsAtZero_of_scansAs {α : Type} {read : List UInt8 → Scan (α × List UInt8)}
    {scan : List UInt8 → Nat → Except (ReadFault × Nat) (α × Nat)}
    (hscan : ∀ {bytes stop i text}, At bytes stop i text →
      ScansAs bytes stop i (scan bytes i) (read text))
    (hp : 0 ∉ p) (r₁ r₂ : List UInt8) {start : Nat} (h : start ≤ p.length) :
    EndsAtZero (Scan.runAt read) scan p r₁ r₂ start := by
  have hrunAt (bytes : List UInt8) :
      Scan.runAt read bytes start = outcomeAt (scan bytes start) :=
    (hscan (at_content bytes start)).runAt (at_content bytes start)
  have hat : At p p.length start (p.drop start) := by
    refine ⟨content_eq_self fun hzero => hp (List.mem_of_mem_drop hzero), ?_⟩
    rw [List.length_drop]
    omega
  refine ⟨fun r _ => runAt_terminated read hp h r, fun bytes hbytes => ?_, ?_⟩
  · rw [← hrunAt]
    simp only [List.mem_cons, List.not_mem_nil, or_false] at hbytes
    rcases hbytes with rfl | rfl | rfl
    · rfl
    · exact runAt_terminated read hp h r₁
    · exact runAt_terminated read hp h r₂
  · have hscanned := hscan hat
    rw [hrunAt]
    generalize scan p start = x at hscanned ⊢
    generalize read (p.drop start) = x' at hscanned
    cases hscanned with
    | ok hle hrest => exact Int.ofNat_le.2 hrest.le
    | error hle hrest => exact Int.ofNat_le.2 hrest.le

/-! ## Documents -/

/-- What stands behind a zero byte is not read, whatever the builder is. -/
theorem Builder.read_terminated {σ ν κ : Type} (b : Builder σ ν κ) (hne : p ≠ []) (hp : 0 ∉ p)
    {options : ReadOptions} (hlength : options.tooLong (p ++ 0 :: r) = none) (s : σ) :
    b.read options (p ++ 0 :: r) s = b.read options p s := by
  have hempty : (p ++ 0 :: r).isEmpty = false := by simp
  have hempty' : p.isEmpty = false := by simpa using hne
  have hlength' : options.tooLong p = none := by
    rw [ReadOptions.tooLong_eq_none_iff] at hlength ⊢
    intro limit hlimit
    have := hlength limit hlimit
    rw [List.length_append] at this
    omega
  unfold read
  simp only [hempty, hempty', hlength, hlength', content_terminated hp, content_eq_self hp,
    Bool.false_eq_true, if_false]
  split
  · rfl
  · rw [Position.ofOffset_append (Nat.sub_le ..)]

/-- The offset that the outcome of a reading tells: behind the document, or of the failure. -/
def reportedOffset {ν : Type} : Except ReadFailure (ν × Nat) → Int
  | .ok (_, stop) => stop
  | .error e => e.position.offset

theorem Builder.reportedOffset_read_le {σ ν κ : Type} (b : Builder σ ν κ) (options : ReadOptions)
    (bytes : List UInt8) (s : σ) :
    reportedOffset (b.read options bytes s).1 ≤ (content bytes).length := by
  unfold read
  split
  · exact Int.natCast_nonneg _
  · split
    · exact Int.natCast_nonneg _
    · simp only
      split
      · exact Int.ofNat_le.2 (Nat.sub_le ..)
      · exact Int.ofNat_le.2 (Nat.sub_le ..)

namespace Session

/-- Reads a document in place into the store of a session, as `parse` does. -/
def parseInPlace (options : ReadOptions) (bytes : List UInt8) (s : Session) :
    Except ReadFailure (NodeId × Nat) × Session :=
  match InPlace.read bytes Store.builder options s.store with
  | (.ok (root, stop), store) => (.ok (root, stop), { s with store })
  | (.error e, store) => (.error e, { s with store }.report e.fault.code)

theorem parseInPlace_eq (options : ReadOptions) (bytes : List UInt8) (s : Session) :
    s.parseInPlace options bytes = s.parse options bytes := by
  unfold parseInPlace
  rw [InPlace.read_eq]
  rfl

/-- **Nothing behind a zero byte is seen.** A text gives one outcome and one session, alone or with
a zero byte and any bytes behind it, and so it does when it is read in place; no place that is told
lies outside of the text. The same holds of a string or a number that is read from anywhere inside
the text. -/
theorem parse_terminated (hne : p ≠ []) (hp : 0 ∉ p) (r₁ r₂ : List UInt8) {options : ReadOptions}
    (h₁ : options.tooLong (p ++ 0 :: r₁) = none) (h₂ : options.tooLong (p ++ 0 :: r₂) = none)
    (s : Session) :
    (s.parse options (p ++ 0 :: r₁) = s.parse options p ∧
      s.parse options (p ++ 0 :: r₂) = s.parse options p ∧
      (∀ bytes ∈ [p, p ++ 0 :: r₁, p ++ 0 :: r₂],
        s.parseInPlace options bytes = s.parse options p) ∧
      reportedOffset (s.parse options p).1 ≤ p.length) ∧
    ∀ start ≤ p.length,
      EndsAtZero StringLiteral.readAt readString p r₁ r₂ start ∧
        EndsAtZero NumberLiteral.readAt readNumber p r₁ r₂ start := by
  have hparse {r : List UInt8} (h : options.tooLong (p ++ 0 :: r) = none) :
      s.parse options (p ++ 0 :: r) = s.parse options p := by
    unfold parse Store.read
    rw [Builder.read_terminated Store.builder hne hp h s.store]
  refine ⟨⟨hparse h₁, hparse h₂, fun bytes hbytes => ?_, ?_⟩, fun start hstart =>
    ⟨endsAtZero_of_scansAs scansAs_string hp r₁ r₂ hstart,
      endsAtZero_of_scansAs scansAs_number hp r₁ r₂ hstart⟩⟩
  · rw [parseInPlace_eq]
    simp only [List.mem_cons, List.not_mem_nil, or_false] at hbytes
    rcases hbytes with rfl | rfl | rfl
    · rfl
    · exact hparse h₁
    · exact hparse h₂
  · have hread := Store.builder.reportedOffset_read_le options p s.store
    rw [content_eq_self hp] at hread
    unfold parse Store.read
    generalize Store.builder.read options p s.store = result at hread ⊢
    obtain ⟨outcome, store⟩ := result
    cases outcome with
    | ok p => exact hread
    | error e => exact hread

/-- A zero byte cuts an escape in two: the rest of it behind the zero byte does not help, and the
string is not closed where the zero byte stands. -/
theorem parse_terminated_cut_escape :
    let p := Utf8.encode "[1,\n\"a\\u00"
    let r := Utf8.encode "41\"]"
    let options : ReadOptions := { maxLength := some 20 }
    (p ≠ [] ∧ 0 ∉ p ∧ options.tooLong (p ++ 0 :: r) = none ∧ options.tooLong (p ++ [0]) = none) ∧
      ((empty none).parse options (p ++ 0 :: r) = (empty none).parse options p ∧
        (empty none).parseInPlace options (p ++ 0 :: r) = (empty none).parse options p ∧
        ((empty none).parse options p).1 = .error ⟨.unterminatedString, ⟨2, 7, 10⟩⟩) ∧
      StringLiteral.readAt (p ++ 0 :: r) 4 = .error (.unterminatedString, 10) ∧
      outcomeAt (readNumber (p ++ 0 :: r) 1) = NumberLiteral.readAt p 1 := by
  intro p r options
  have hne : p ≠ [] := by decide
  have hp : 0 ∉ p := by decide
  have hr : options.tooLong (p ++ 0 :: r) = none := by decide
  have hnil : options.tooLong (p ++ [0]) = none := by decide
  obtain ⟨⟨hparse, -, hplace, -⟩, hliterals⟩ := parse_terminated hne hp r [] hr hnil (empty none)
  have hstring := (hliterals 4 (by decide)).1
  have hnumber := (hliterals 1 (by decide)).2
  refine ⟨⟨hne, hp, hr, hnil⟩, ⟨hparse, hplace _ (by simp), by decide +kernel⟩, ?_, ?_⟩
  · exact (hstring.readAt_eq r (by simp)).trans (by decide +kernel)
  · exact hnumber.scan_eq _ (by simp)

end Session

end LinkedJson
