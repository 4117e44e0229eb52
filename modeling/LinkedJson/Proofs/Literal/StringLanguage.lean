import LinkedJson.Proofs.Grammar.StrictReading
import LinkedJson.Proofs.Text.Offsets

/-!
# The language of string literals

A string literal is a quote, items and a closing quote (`literalBytes`). An `Item` is a byte that
stands for itself, a short escape, an escape by a code unit that is no surrogate, or a pair of
escapes by two surrogates; what the items write has to be well-formed UTF-8.

`Outcome` says, by the bytes alone and without a reader, what comes of reading a literal at an
offset: there are four ways to fail, and each has its place. Something comes of every text
(`exists_outcome`), and it is what the reader gives (`readAt_eq_of_outcome`), so the reader accepts
exactly the language and names the first thing that is wrong with any other text
(`readAt_iff_outcome`).
-/

namespace LinkedJson.StringLiteral

open Ascii

/-! ## Items -/

/-- The letters of the short escapes, each with the byte that it stands for. -/
def shortEscapes : List (UInt8 × UInt8) :=
  [(0x62, 0x08), (0x66, 0x0c), (0x6e, 0x0a), (0x72, 0x0d), (0x74, 0x09), (quote, quote),
    (backslash, backslash), (slash, slash)]

/-- Four hexadecimal digits of either case. -/
def IsCode (digits : List UInt8) : Prop :=
  digits.length = 4 ∧ ∀ d ∈ digits, (hexValue? d).isSome = true

instance (digits : List UInt8) : Decidable (IsCode digits) :=
  inferInstanceAs (Decidable (_ ∧ _))

/-- A piece between the quotes of a literal. -/
inductive Item where
  /-- A byte that stands for itself. -/
  | plain (b : UInt8) (h : b ≠ 0 ∧ b ≠ quote ∧ b ≠ backslash)
  /-- A backslash and a letter. -/
  | short (letter byte : UInt8) (h : (letter, byte) ∈ shortEscapes)
  /-- A backslash, a `u` and the digits of a code unit other than 0 that is no surrogate. -/
  | code (digits : List UInt8) (h : IsCode digits) (hzero : Strict.codeUnit digits ≠ 0)
    (hhigh : Utf16.isHighSurrogate (Strict.codeUnit digits) = false)
    (hlow : Utf16.isLowSurrogate (Strict.codeUnit digits) = false)
  /-- Two such escapes, by a high and a low surrogate. -/
  | pair (high low : List UInt8) (hhigh : IsCode high) (hlow : IsCode low)
    (hfirst : Utf16.isHighSurrogate (Strict.codeUnit high) = true)
    (hsecond : Utf16.isLowSurrogate (Strict.codeUnit low) = true)

namespace Item

def bytes : Item → List UInt8
  | plain b _ => [b]
  | short letter _ _ => [backslash, letter]
  | code digits .. => backslash :: 0x75 :: digits
  | pair high low .. => backslash :: 0x75 :: (high ++ backslash :: 0x75 :: low)

/-- The bytes that an item stands for: its own byte, or the UTF-8 form of its character. -/
def written : Item → List UInt8
  | plain b _ => [b]
  | short _ byte _ => [byte]
  | code digits .. => String.utf8EncodeChar (.ofNat (Strict.codeUnit digits))
  | pair high low .. =>
    String.utf8EncodeChar
      (.ofNat (Utf16.joinSurrogates (Strict.codeUnit high) (Strict.codeUnit low)))

end Item

/-- The bytes of a literal. -/
def literalBytes (items : List Item) : List UInt8 :=
  quote :: items.flatMap Item.bytes ++ [quote]

/-- What may stand in front of a closing quote: no quote without a backslash in front of it, and no
backslash without a byte behind it. -/
inductive Body : List UInt8 → Prop
  | nil : Body []
  | plain {b : UInt8} {text : List UInt8} (hquote : b ≠ quote) (hbackslash : b ≠ backslash)
    (h : Body text) : Body (b :: text)
  | escape {b : UInt8} {text : List UInt8} (h : Body text) : Body (backslash :: b :: text)

/-- What comes of reading a literal at an offset: the string and the offset behind the literal, or
the code of the fault and its place. -/
inductive Outcome (bytes : List UInt8) (start : Int) :
    Except (FaultCode × Int) (String × Int) → Prop
  /-- A literal whose items write a string. -/
  | literal {items : List Item} {s : String} (htext : literalBytes items <+: textFrom bytes start)
    (hs : Utf8.decode? (items.flatMap Item.written) = some s) :
    Outcome bytes start (.ok (s, start + (literalBytes items).length))
  /-- There is no quote to begin with. -/
  | unquoted (h : byteOrZero bytes start ≠ quote) :
    Outcome bytes start (.error (.malformedValue, start))
  /-- No quote closes the literal, up to the end of the text. -/
  | unclosed {inner : List UInt8} (htext : content (textFrom bytes start) = quote :: inner)
    (hopen : ∀ body rest, Body body → inner ≠ body ++ quote :: rest) :
    Outcome bytes start
      (.error (.unterminatedString, start + (content (textFrom bytes start)).length))
  /-- Behind some items, in front of the closing quote, a backslash begins no item. -/
  | badEscape {items : List Item} {letter : UInt8} {after rest : List UInt8}
    (htext : content (textFrom bytes start) =
      quote :: (items.flatMap Item.bytes ++ backslash :: letter :: after) ++ quote :: rest)
    (hbody : Body (items.flatMap Item.bytes ++ backslash :: letter :: after))
    (hbad : ∀ item : Item, ¬ item.bytes <+: backslash :: letter :: after) :
    Outcome bytes start
      (.error (if letter = 0x75 then .invalidUnicodeEscape else .invalidEscape,
        start + 1 + (items.flatMap Item.bytes).length))
  /-- A literal whose items do not write a string. -/
  | notUtf8 {items : List Item} (htext : literalBytes items <+: textFrom bytes start)
    (hs : Utf8.decode? (items.flatMap Item.written) = none) :
    Outcome bytes start (.error (.malformedValue, start))

/-! ## Bodies and closing quotes -/

theorem bodyLength?_body {body : List UInt8} (h : Body body) (n : Nat) (text : List UInt8) :
    bodyLength? n (body ++ text) = bodyLength? (n + body.length) text := by
  induction h generalizing n with
  | nil => rfl
  | plain hquote hbackslash h ih =>
    rw [List.cons_append, bodyLength?_plain hquote hbackslash, ih, List.length_cons]
    congr 1
    omega
  | escape h ih =>
    rw [List.cons_append, List.cons_append, bodyLength?_escape, ih, List.length_cons,
      List.length_cons]
    congr 1
    omega

/-- The closing quote is the first one behind a body. -/
theorem exists_body_of_bodyLength? {n m : Nat} {text : List UInt8}
    (h : bodyLength? n text = some m) :
    ∃ body rest, Body body ∧ text = body ++ quote :: rest := by
  fun_induction bodyLength? n text with
  | case1 n => cases h
  | case2 n text => exact ⟨[], text, .nil, rfl⟩
  | case3 n hquote => cases h
  | case4 n hquote c text ih =>
    obtain ⟨body, rest, hbody, rfl⟩ := ih h
    exact ⟨_, rest, .escape hbody, rfl⟩
  | case5 n b text hquote hbackslash ih =>
    obtain ⟨body, rest, hbody, rfl⟩ := ih h
    exact ⟨_, rest, .plain hquote hbackslash hbody, rfl⟩

theorem Body.tail {b : UInt8} {text : List UInt8} (h : Body (b :: text)) (hb : b ≠ backslash) :
    Body text := by
  cases h with
  | plain hquote hbackslash h => exact h
  | escape h => exact absurd rfl hb

theorem Body.of_escape {b : UInt8} {text : List UInt8} (h : Body (backslash :: b :: text)) :
    Body text := by
  cases h with
  | plain hquote hbackslash h => exact absurd rfl hbackslash
  | escape h => exact h

theorem Body.of_append {front rest : List UInt8} (h : Body (front ++ rest))
    (hfront : ∀ b ∈ front, b ≠ quote ∧ b ≠ backslash) : Body rest := by
  induction front with
  | nil => exact h
  | cons b front ih =>
    obtain ⟨hb, hfront⟩ := List.forall_mem_cons.1 hfront
    exact ih (h.tail hb.2) hfront

theorem Body.append {front rest : List UInt8} (hfront : ∀ b ∈ front, b ≠ quote ∧ b ≠ backslash)
    (h : Body rest) : Body (front ++ rest) := by
  induction front with
  | nil => exact h
  | cons b front ih =>
    obtain ⟨hb, hfront⟩ := List.forall_mem_cons.1 hfront
    exact .plain hb.1 hb.2 (ih hfront)

theorem IsCode.ne {digits : List UInt8} (h : IsCode digits) :
    ∀ d ∈ digits, d ≠ quote ∧ d ≠ backslash :=
  fun d hd => (Strict.ne_of_isHexDigit (h.2 d hd)).imp_right And.left

namespace Item

/-- An item neither closes a literal nor begins an escape that goes on behind it. -/
theorem body_append_iff (item : Item) {rest : List UInt8} :
    Body (item.bytes ++ rest) ↔ Body rest := by
  cases item with
  | plain b h =>
    have hb : ∀ c ∈ [b], c ≠ quote ∧ c ≠ backslash := List.forall_mem_singleton.2 h.2
    exact ⟨fun hbody => hbody.of_append hb, .append hb⟩
  | short letter byte h => exact ⟨Body.of_escape, .escape⟩
  | code digits h =>
    exact ⟨fun hbody => hbody.of_escape.of_append h.ne, fun hbody => .escape (.append h.ne hbody)⟩
  | pair high low hhigh hlow =>
    simp only [bytes, List.cons_append, List.append_assoc]
    exact ⟨fun hbody => (hbody.of_escape.of_append hhigh.ne).of_escape.of_append hlow.ne,
      fun hbody => .escape (.append hhigh.ne (.escape (.append hlow.ne hbody)))⟩

theorem body_flatMap (items : List Item) : Body (items.flatMap bytes) := by
  induction items with
  | nil => exact .nil
  | cons item items ih => exact item.body_append_iff.2 ih

theorem zero_not_mem_bytes (item : Item) : 0 ∉ item.bytes := by
  have hcode {digits : List UInt8} (h : IsCode digits) : 0 ∉ digits :=
    fun hzero => (Strict.ne_of_isHexDigit (h.2 0 hzero)).2.2 rfl
  have hbackslash : (0 : UInt8) ≠ backslash := by decide
  cases item with
  | plain b h => simpa [bytes] using h.1.symm
  | short letter byte h =>
    have hall : ∀ p ∈ shortEscapes, (p.1 != 0) = true := List.all_eq_true.1 rfl
    have hletter : letter ≠ 0 := bne_iff_ne.1 (hall _ h)
    simpa [bytes, hbackslash] using hletter.symm
  | code digits h => simpa [bytes, hbackslash] using hcode h
  | pair high low hhigh hlow =>
    simpa [bytes, hbackslash] using And.intro (hcode hhigh) (hcode hlow)

theorem bytes_ne_nil (item : Item) : item.bytes ≠ [] := by
  cases item <;> exact List.cons_ne_nil _ _

end Item

theorem zero_not_mem_literalBytes (items : List Item) : 0 ∉ literalBytes items := by
  have hquote : (0 : UInt8) ≠ quote := by decide
  simp [literalBytes, Item.zero_not_mem_bytes, hquote]

/-! ## Reading items -/

theorem short?_eq_some_iff {letter byte : UInt8} :
    Escape.short? letter = some byte ↔ (letter, byte) ∈ shortEscapes := by
  constructor
  · intro h
    unfold Escape.short? at h
    split at h
    · rename_i hletter
      cases h
      rcases hletter with rfl | rfl | rfl <;> decide
    · repeat' split at h
      all_goals cases h
      all_goals
        subst_vars
        decide
  · intro h
    have hall : ∀ p ∈ shortEscapes, (Escape.short? p.1 == some p.2) = true :=
      List.all_eq_true.1 rfl
    exact eq_of_beq (hall _ h)

/-- Digits that write a code unit are in front. -/
theorem exists_code_of_codeUnit? {text : List UInt8} {unit : Nat}
    (h : Escape.codeUnit? text = some unit) :
    ∃ digits, IsCode digits ∧ Strict.codeUnit digits = unit ∧ text = digits ++ text.drop 4 := by
  match text, h with
  | a :: b :: c :: d :: rest, h =>
    have hcode : IsCode [a, b, c, d] := by
      refine ⟨rfl, ?_⟩
      simp only [Escape.codeUnit?] at h
      cases ha : hexValue? a <;> cases hb : hexValue? b <;> cases hc : hexValue? c <;>
        cases hd : hexValue? d <;> simp [ha, hb, hc, hd] at h ⊢
    refine ⟨[a, b, c, d], hcode, ?_, rfl⟩
    have hunit := (Strict.exists_codeUnit hcode).1 rest
    rw [show [a, b, c, d] ++ rest = a :: b :: c :: d :: rest from rfl, h] at hunit
    exact (Option.some.inj hunit).symm

/-- A surrogate pair writes a character. -/
theorem toNat_joinSurrogates {high low : Nat} (hhigh : Utf16.isHighSurrogate high = true)
    (hlow : Utf16.isLowSurrogate low = true) :
    (Char.ofNat (Utf16.joinSurrogates high low)).toNat = Utf16.joinSurrogates high low := by
  have hvalid : (Utf16.joinSurrogates high low).isValidChar := by
    simp only [Utf16.isHighSurrogate, Utf16.isLowSurrogate, Bool.and_eq_true,
      decide_eq_true_eq] at hhigh hlow
    refine .inr ?_
    unfold Utf16.joinSurrogates
    omega
  rw [Char.ofNat, dif_pos hvalid]
  rfl

/-- A code unit that is no surrogate writes a character. -/
theorem toNat_codeUnit {unit : Nat} (hlt : unit < 0x10000)
    (hhigh : Utf16.isHighSurrogate unit = false) (hlow : Utf16.isLowSurrogate unit = false) :
    (Char.ofNat unit).toNat = unit := by
  have hvalid : unit.isValidChar := by
    simp only [Utf16.isHighSurrogate, Utf16.isLowSurrogate, Bool.and_eq_false_iff,
      decide_eq_false_iff_not] at hhigh hlow
    unfold Nat.isValidChar
    omega
  rw [Char.ofNat, dif_pos hvalid]
  rfl

/-- **An item is read as the bytes that it stands for**, whatever follows it. -/
theorem item_bytes_append (i : Item) (rest : List UInt8) :
    item (i.bytes ++ rest) = .ok (i.written, rest) := by
  cases i with
  | plain b h => exact if_pos h.2.2
  | short letter byte h =>
    simp [Item.bytes, Item.written, item, short?_eq_some_iff.2 h]
  | code digits h hzero hhigh hlow =>
    have hchar := toNat_codeUnit (Strict.exists_codeUnit h).2 hhigh hlow
    have hwindow : 4 ≤ ((digits ++ rest).take 10).length := by
      have := h.1
      simp only [List.length_take, List.length_append]
      omega
    exact Strict.item_code (Strict.codePoint_of_char h hchar hzero hwindow rest)
  | pair high low hhigh hlow hfirst hsecond =>
    have hchar := toNat_joinSurrogates hfirst hsecond
    have hpoint := Strict.codePoint_of_pair hhigh hlow hfirst hsecond hchar rest
    have hwindow : ((high ++ backslash :: 0x75 :: (low ++ rest)).take 10).length = 10 := by
      have := hhigh.1
      have := hlow.1
      simp only [List.length_take, List.length_append, List.length_cons]
      omega
    rw [← hwindow] at hpoint
    have happend : (Item.pair high low hhigh hlow hfirst hsecond).bytes ++ rest =
        backslash :: 0x75 :: (high ++ backslash :: 0x75 :: (low ++ rest)) := by
      simp [Item.bytes]
    rw [happend, Strict.item_code hpoint]
    rfl

theorem eq_of_startsUnicode {text : List UInt8} (h : Escape.startsUnicode text = true) :
    text = backslash :: 0x75 :: text.drop 2 := by
  unfold Escape.startsUnicode at h
  split at h
  · rw [Bool.and_eq_true, beq_iff_eq, beq_iff_eq] at h
    rw [h.1, h.2]
    rfl
  · cases h

/-- What a code point is read from, behind a backslash and a `u`, is an item. -/
theorem exists_item_of_codePoint {window point : Nat} {after rest : List UInt8}
    (h : Escape.codePoint window after = .ok (point, rest)) :
    ∃ i : Item, i.bytes <+: backslash :: 0x75 :: after := by
  cases Escape.codePointRead h with
  | unit _ hunit hne hlow hhigh =>
    obtain ⟨digits, hdigits, rfl, htext⟩ := exists_code_of_codeUnit? hunit
    refine ⟨.code digits hdigits hne hhigh hlow, after.drop 4, ?_⟩
    rw [Item.bytes, List.cons_append, List.cons_append, ← htext]
  | pair hunit hhigh hsecond _ =>
    obtain ⟨digits, hdigits, rfl, htext⟩ := exists_code_of_codeUnit? hunit
    cases Escape.lowSurrogateRead hsecond with
    | low _ hstarts hunit' hlow =>
      obtain ⟨digits', hdigits', rfl, htext'⟩ := exists_code_of_codeUnit? hunit'
      refine ⟨.pair digits digits' hdigits hdigits' hhigh hlow,
        ((after.drop 4).drop 2).drop 4, ?_⟩
      simp only [Item.bytes, List.cons_append, List.append_assoc]
      rw [← htext', ← eq_of_startsUnicode hstarts, ← htext]

theorem exists_item_of_item {letter : UInt8} {after rest written : List UInt8}
    (h : item (backslash :: letter :: after) = .ok (written, rest)) :
    ∃ i : Item, i.bytes <+: backslash :: letter :: after := by
  simp only [item, ne_eq, not_true_eq_false, if_false] at h
  split at h
  · rename_i byte hbyte
    exact ⟨.short letter byte (short?_eq_some_iff.1 hbyte), ⟨after, rfl⟩⟩
  · split at h
    · cases h
    · rename_i hletter
      rw [Decidable.not_not] at hletter
      subst hletter
      split at h
      · cases h
      · rename_i hpoint
        exact exists_item_of_codePoint hpoint

/-- Every fault of an escape by code has one code. -/
theorem code_of_codePoint {window : Nat} {after : List UInt8} {fault : ReadFault}
    (h : Escape.codePoint window after = .error fault) : fault.code = .invalidUnicodeEscape := by
  cases Escape.codePointRead h with
  | incomplete => rfl
  | bad => rfl
  | badPair hsecond =>
    cases Escape.lowSurrogateRead hsecond with
    | unpaired => rfl
    | bad => rfl

/-- A backslash that begins no item is a fault, and the letter behind it tells which. -/
theorem exists_fault_of_item {letter : UInt8} {after : List UInt8}
    (hbad : ∀ i : Item, ¬ i.bytes <+: backslash :: letter :: after) :
    ∃ fault, item (backslash :: letter :: after) = .error fault ∧
      fault.code = if letter = 0x75 then .invalidUnicodeEscape else .invalidEscape := by
  cases hitem : item (backslash :: letter :: after) with
  | ok p =>
    obtain ⟨i, hi⟩ := exists_item_of_item hitem
    exact absurd hi (hbad i)
  | error fault =>
    refine ⟨fault, rfl, ?_⟩
    simp only [item, ne_eq, not_true_eq_false, if_false] at hitem
    split at hitem
    · cases hitem
    · split at hitem
      · rename_i hletter
        cases hitem
        exact (if_neg hletter).symm
      · rename_i hletter
        rw [if_pos (Decidable.not_not.1 hletter)]
        split at hitem
        · rename_i hpoint
          cases hitem
          exact code_of_codePoint hpoint
        · cases hitem

/-! ## Reading bodies -/

theorem unescape_items_append (items : List Item) (rest out : List UInt8) :
    unescape (items.flatMap Item.bytes ++ rest) out =
      unescape rest ((items.flatMap Item.written).reverse ++ out) := by
  induction items generalizing out with
  | nil => rfl
  | cons i items ih =>
    rw [List.flatMap_cons, List.append_assoc, unescape_of_item (item_bytes_append i _), ih,
      List.flatMap_cons, List.reverse_append, List.append_assoc]

theorem unescape_items (items : List Item) :
    unescape (items.flatMap Item.bytes) [] = .ok (items.flatMap Item.written) := by
  have h := unescape_items_append items [] []
  rwa [List.append_nil, List.append_nil, unescape_nil, List.reverse_reverse] at h

theorem unescape_of_fault {body : List UInt8} {fault : ReadFault} (hne : body ≠ [])
    (h : item body = .error fault) (out : List UInt8) :
    unescape body out = .error (fault, body) := by
  rw [unescape, if_neg (mt List.isEmpty_iff.1 hne)]
  split
  · rename_i herror
    rw [h] at herror
    cases herror
    rfl
  · rename_i hok
    rw [h] at hok
    cases hok

theorem unescape_of_not_mem {body : List UInt8} (h : backslash ∉ body) :
    unescape body [] = .ok body := by
  have hplain := Strict.unescape_plain (fun b hb => ne_of_mem_of_not_mem hb h) [] []
  rwa [List.append_nil, List.append_nil, unescape_nil, List.reverse_reverse] at hplain

/-- A body without a backslash is taken as it stands, which is what replacing its escapes gives. -/
theorem bodyBytes_eq_unescape (body : List UInt8) : bodyBytes body = unescape body [] := by
  unfold bodyBytes
  split
  · rfl
  · rename_i hcontains
    exact (unescape_of_not_mem (by simpa using hcontains)).symm

/-- Items, and a backslash that begins none, are all there is. -/
theorem exists_items {body : List UInt8} (h : Body body) (hzero : 0 ∉ body) :
    (∃ items : List Item, body = items.flatMap Item.bytes) ∨
    ∃ (items : List Item) (letter : UInt8) (after : List UInt8),
      body = items.flatMap Item.bytes ++ backslash :: letter :: after ∧
        ∀ i : Item, ¬ i.bytes <+: backslash :: letter :: after := by
  by_cases hitem : ∃ i : Item, i.bytes <+: body
  · obtain ⟨i, rest, rfl⟩ := hitem
    have hlt : rest.length < (i.bytes ++ rest).length := by
      have := List.length_pos_iff.2 i.bytes_ne_nil
      rw [List.length_append]
      omega
    rcases exists_items (i.body_append_iff.1 h) (mt (List.mem_append_right _) hzero) with
      ⟨items, rfl⟩ | ⟨items, letter, after, rfl, hbad⟩
    · exact .inl ⟨i :: items, List.flatMap_cons.symm⟩
    · exact .inr ⟨i :: items, letter, after, by rw [List.flatMap_cons, List.append_assoc], hbad⟩
  · cases h with
    | nil => exact .inl ⟨[], rfl⟩
    | @plain b text hquote hbackslash h =>
      have hb : b ≠ 0 := fun hb => hzero (hb ▸ List.mem_cons_self)
      exact absurd ⟨.plain b ⟨hb, hquote, hbackslash⟩, text, rfl⟩ hitem
    | @escape b text h =>
      exact .inr ⟨[], b, text, rfl, fun i hi => hitem ⟨i, hi⟩⟩
termination_by body.length

/-! ## Reading literals -/

/-- What is read is told by the body in front of the closing quote. -/
theorem read_quoted {body : List UInt8} (h : Body body) (rest : List UInt8) :
    read (quote :: body ++ quote :: rest) =
      match unescape body [] with
      | .error (fault, left) => .error (fault, left ++ quote :: rest)
      | .ok bytes =>
        match Utf8.decode? bytes with
        | none => .error (.notUtf8, quote :: body ++ quote :: rest)
        | some s => .ok (s, rest) := by
  have hlength : bodyLength? 0 (body ++ quote :: rest) = some body.length := by
    rw [bodyLength?_body h, bodyLength?_quote, Nat.zero_add]
  have hdrop : (body ++ quote :: rest).drop (body.length + 1) = rest := by
    rw [List.drop_append, List.drop_eq_nil_of_le (Nat.le_succ _), Nat.add_sub_cancel_left]
    rfl
  rcases hbody : unescape body [] with ⟨fault, left⟩ | bytes
  · simp only [List.cons_append, read, ne_eq, not_true_eq_false, if_false, hlength,
      List.take_left, List.drop_left, bodyBytes_eq_unescape, hbody]
  · rcases hdecode : Utf8.decode? bytes with _ | s <;>
      simp only [List.cons_append, read, ne_eq, not_true_eq_false, if_false, hlength,
        List.take_left, hdrop, bodyBytes_eq_unescape, hbody, hdecode]

theorem readAt_of_ok {bytes rest : List UInt8} {start : Int} {s : String} {n : Nat}
    (h : read (content (textFrom bytes start)) = .ok (s, rest))
    (hn : (content (textFrom bytes start)).length = n + rest.length) :
    readAt bytes start = .ok (s, start + n) := by
  simp only [readAt, Scan.runAt, h, hn, Nat.add_sub_cancel]

theorem readAt_of_error {bytes rest : List UInt8} {start : Int} {fault : ReadFault} {n : Nat}
    (h : read (content (textFrom bytes start)) = .error (fault, rest))
    (hn : (content (textFrom bytes start)).length = n + rest.length) :
    readAt bytes start = .error (fault, start + n) := by
  simp only [readAt, Scan.runAt, h, hn, Nat.add_sub_cancel]

/-- A literal at an offset is in the content of the text. -/
theorem content_of_literalBytes {bytes : List UInt8} {items : List Item}
    (h : literalBytes items <+: bytes) :
    ∃ rest, content bytes = quote :: items.flatMap Item.bytes ++ quote :: rest := by
  obtain ⟨rest, rfl⟩ := h
  exact ⟨content rest, by
    rw [content_append (zero_not_mem_literalBytes items), literalBytes, List.append_assoc,
      List.singleton_append]⟩

theorem length_literalBytes (items : List Item) :
    (literalBytes items).length = (items.flatMap Item.bytes).length + 2 := by
  rw [literalBytes, List.length_append, List.length_cons]
  rfl

theorem byteOrZero_eq (bytes : List UInt8) (start : Int) :
    byteOrZero bytes start = (content (textFrom bytes start)).headD 0 := by
  rw [byteOrZero]
  cases textFrom bytes start with
  | nil => rfl
  | cons b text =>
    by_cases hb : b = 0
    · rw [hb]
      rfl
    · rw [content, List.takeWhile_cons, if_pos (decide_eq_true hb)]
      rfl

/-- The code of a fault, with its place. -/
def coded (e : ReadFault × Int) : FaultCode × Int :=
  (e.1.code, e.2)

/-- **What comes of a text by the language is what the reader gives.** -/
theorem readAt_eq_of_outcome {bytes : List UInt8} {start : Int}
    {r : Except (FaultCode × Int) (String × Int)} (h : Outcome bytes start r) :
    (readAt bytes start).mapError coded = r := by
  cases h with
  | @literal items s htext hs =>
    obtain ⟨rest, hrest⟩ := content_of_literalBytes htext
    have hread := read_quoted (Item.body_flatMap items) rest
    rw [unescape_items] at hread
    simp only [hs, ← hrest] at hread
    have hlength : (content (textFrom bytes start)).length =
        (literalBytes items).length + rest.length := by
      rw [hrest, length_literalBytes, List.length_append, List.length_cons, List.length_cons]
      omega
    rw [readAt_of_ok hread hlength]
    rfl
  | unquoted h =>
    have hread : read (content (textFrom bytes start)) =
        .error (.expectedString, content (textFrom bytes start)) := by
      rw [byteOrZero_eq] at h
      cases hcontent : content (textFrom bytes start) with
      | nil => rfl
      | cons b text =>
        rw [hcontent] at h
        exact if_pos h
    rw [readAt_of_error hread (Nat.zero_add _).symm, Int.natCast_zero, Int.add_zero]
    rfl
  | @unclosed inner htext hopen =>
    have hlength : bodyLength? 0 inner = none := by
      cases hlength : bodyLength? 0 inner with
      | none => rfl
      | some n =>
        obtain ⟨body, rest, hbody, hinner⟩ := exists_body_of_bodyLength? hlength
        exact absurd hinner (hopen body rest hbody)
    have hread : read (content (textFrom bytes start)) = .error (.unterminatedString, []) := by
      rw [htext]
      simp [read, hlength]
    rw [readAt_of_error hread (Nat.add_zero _).symm]
    rfl
  | @badEscape items letter after rest htext hbody hbad =>
    obtain ⟨fault, hfault, hcode⟩ := exists_fault_of_item hbad
    have hread := read_quoted hbody rest
    rw [unescape_items_append, unescape_of_fault (List.cons_ne_nil _ _) hfault, ← htext] at hread
    have hlength : (content (textFrom bytes start)).length =
        1 + (items.flatMap Item.bytes).length +
          (backslash :: letter :: after ++ quote :: rest).length := by
      simp only [htext, List.length_append, List.length_cons]
      omega
    rw [readAt_of_error hread hlength, Except.mapError, coded, hcode, Nat.cast_add, Nat.cast_one,
      Int.add_assoc]
  | @notUtf8 items htext hs =>
    obtain ⟨rest, hrest⟩ := content_of_literalBytes htext
    have hread := read_quoted (Item.body_flatMap items) rest
    rw [unescape_items] at hread
    simp only [hs, ← hrest] at hread
    rw [readAt_of_error hread (Nat.zero_add _).symm, Int.natCast_zero, Int.add_zero]
    rfl

/-- Something comes of every text. -/
theorem exists_outcome (bytes : List UInt8) (start : Int) : ∃ r, Outcome bytes start r := by
  by_cases hquote : byteOrZero bytes start = quote
  · obtain ⟨inner, htext⟩ : ∃ inner, content (textFrom bytes start) = quote :: inner := by
      rw [byteOrZero_eq] at hquote
      cases hcontent : content (textFrom bytes start) with
      | nil =>
        rw [hcontent] at hquote
        cases hquote
      | cons b inner =>
        rw [hcontent] at hquote
        exact ⟨inner, congrArg (· :: inner) hquote⟩
    by_cases hclosed : ∃ body rest, Body body ∧ inner = body ++ quote :: rest
    · obtain ⟨body, rest, hbody, rfl⟩ := hclosed
      have hzero : 0 ∉ body := by
        intro hmem
        refine zero_not_mem_content (textFrom bytes start) ?_
        rw [htext]
        exact List.mem_cons_of_mem _ (List.mem_append_left _ hmem)
      rcases exists_items hbody hzero with ⟨items, rfl⟩ | ⟨items, letter, after, rfl, hbad⟩
      · have hliteral : literalBytes items <+: textFrom bytes start := by
          refine List.IsPrefix.trans ?_ (content_isPrefix _)
          exact ⟨rest, by
            rw [htext, literalBytes, List.append_assoc, List.singleton_append,
              List.cons_append]⟩
        cases hs : Utf8.decode? (items.flatMap Item.written) with
        | none => exact ⟨_, .notUtf8 hliteral hs⟩
        | some s => exact ⟨_, .literal hliteral hs⟩
      · exact ⟨_, .badEscape htext hbody hbad⟩
    · exact ⟨_, .unclosed htext fun body rest hbody hinner =>
        hclosed ⟨body, rest, hbody, hinner⟩⟩
  · exact ⟨_, .unquoted hquote⟩

/-- **The reader of string literals accepts exactly the language of string literals**, gives the
string that a literal writes, and names the first thing that is wrong with any other text. A body
without a backslash is the same whether its escapes are replaced or not. -/
theorem readAt_iff_outcome (bytes : List UInt8) (start : Int) :
    (∀ r, (readAt bytes start).mapError coded = r ↔ Outcome bytes start r) ∧
      ∀ body, backslash ∉ body → bodyBytes body = .ok body ∧ unescape body [] = .ok body := by
  refine ⟨fun r => ⟨fun h => ?_, readAt_eq_of_outcome⟩, fun body h => ?_⟩
  · obtain ⟨r', hr'⟩ := exists_outcome bytes start
    rwa [← h, readAt_eq_of_outcome hr']
  · have hplain := unescape_of_not_mem h
    exact ⟨(bodyBytes_eq_unescape body).trans hplain, hplain⟩

theorem readAt_iff_outcome_surrogate_pair :
    (readAt (Utf8.encode "[\"\\uD83d\\ude00\"]") 1).mapError coded = .ok ("😀", 15) ∧
      unescape (Utf8.encode "é") [] = .ok (Utf8.encode "é") := by
  have hpair : Outcome (Utf8.encode "[\"\\uD83d\\ude00\"]") 1 (.ok ("😀", 15)) :=
    @Outcome.literal _ _ [.pair [0x44, 0x38, 0x33, 0x64] [0x64, 0x65, 0x30, 0x30]
      ⟨rfl, List.all_eq_true.1 rfl⟩ ⟨rfl, List.all_eq_true.1 rfl⟩ (by decide) (by decide)] _
      ⟨[closeBracket], by decide⟩ (Utf8.decode?_eq_some_iff.2 (by decide))
  exact ⟨((readAt_iff_outcome _ 1).1 _).2 hpair, ((readAt_iff_outcome [] 0).2 _ (by decide)).2⟩

end LinkedJson.StringLiteral
