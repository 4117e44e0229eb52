import LinkedJson.Document.Rendering
import LinkedJson.Proofs.Literal.EscapedText
import LinkedJson.Proofs.Literal.NumberText

/-!
# The text of a tree

What is written of a tree, with its references followed: the scalars and the member names in order,
and how deep containers nest. The text of a tree consists of the texts of its scalars, of literals
and of what a layout puts between them (`render_induction`); so it is well-formed UTF-8, and a zero
byte in it comes from a scalar.
-/

namespace LinkedJson

namespace JsonTree

/-! ## What is written -/

mutual

/-- The scalars, references followed. -/
def scalars : JsonTree → List Scalar
  | scalar _ v => [v]
  | array _ items => scalarsOf items
  | object _ members => scalarsOf members
  | reference _ target => target.scalars

def scalarsOf : List JsonTree → List Scalar
  | [] => []
  | t :: ts => t.scalars ++ scalarsOf ts

end

mutual

/-- The names of members, references followed. A member without a name has the empty name. -/
def names : JsonTree → List WideString
  | scalar _ _ => []
  | array _ items => itemNames items
  | object _ members => memberNames members
  | reference _ target => target.names

/-- The names inside of items; those of the items themselves are not written. -/
def itemNames : List JsonTree → List WideString
  | [] => []
  | t :: ts => t.names ++ itemNames ts

def memberNames : List JsonTree → List WideString
  | [] => []
  | t :: ts => t.label.key.getD "" :: (t.names ++ memberNames ts)

end

mutual

/-- The greatest number of containers that stand in each other, references followed. -/
def nesting : JsonTree → Nat
  | scalar _ _ => 0
  | array _ items => nestings items + 1
  | object _ members => nestings members + 1
  | reference _ target => target.nesting

def nestings : List JsonTree → Nat
  | [] => 0
  | t :: ts => max t.nesting (nestings ts)

end

end JsonTree

/-! ## Texts of the layouts -/

namespace Layout

/-- Bytes below 128 other than zero. -/
def Plain (text : List UInt8) : Prop :=
  ∀ b ∈ text, b ≠ 0 ∧ b.toNat < 0x80

theorem Plain.zero_not_mem {text : List UInt8} (h : Plain text) : 0 ∉ text :=
  fun hzero => (h 0 hzero).1 rfl

theorem Plain.wellFormed {text : List UInt8} (h : Plain text) : Utf8.WellFormed text :=
  Utf8.wellFormed_of_lt fun b hb => (h b hb).2

theorem Plain.append {xs ys : List UInt8} (hx : Plain xs) (hy : Plain ys) : Plain (xs ++ ys) :=
  fun b hb => (List.mem_append.1 hb).elim (hx b) (hy b)

theorem plain_nil : Plain [] :=
  fun _ h => absurd h List.not_mem_nil

theorem plain_of_all {text : List UInt8} (h : text.all (fun b => b != 0 && b < 0x80) = true) :
    Plain text := by
  intro b hb
  simpa [UInt8.lt_iff_toNat_lt] using List.all_eq_true.1 h b hb

theorem plain_itemSeparator (pretty : Bool) : Plain (itemSeparator pretty) := by
  cases pretty <;> exact plain_of_all rfl

theorem plain_objectStart (pretty : Bool) : Plain (objectStart pretty) := by
  cases pretty <;> exact plain_of_all rfl

theorem plain_nameSeparator (pretty : Bool) : Plain (nameSeparator pretty) := by
  cases pretty <;> exact plain_of_all rfl

theorem plain_memberEnd (pretty isLast : Bool) : Plain (memberEnd pretty isLast) := by
  cases pretty <;> cases isLast <;> exact plain_of_all rfl

theorem plain_memberIndent (pretty : Bool) (depth : Nat) : Plain (memberIndent pretty depth) := by
  unfold memberIndent
  split
  · intro b hb
    rw [List.eq_of_mem_replicate hb]
    decide
  · exact plain_nil

theorem plain_objectEnd (pretty : Bool) (depth : Nat) : Plain (objectEnd pretty depth) :=
  (plain_memberIndent pretty depth).append (plain_of_all rfl)

/-- What follows an item that may be the last one. -/
theorem plain_itemEnd (pretty isLast : Bool) :
    Plain (if isLast then [] else itemSeparator pretty) := by
  split
  · exact plain_nil
  · exact plain_itemSeparator pretty

end Layout

namespace JsonTree

/-! ## Texts put together -/

variable {P : List UInt8 → Prop}

mutual

/-- What holds of the texts of the scalars, of literals and of layouts, and of texts put together,
holds of the whole text. -/
theorem render_induction (happend : ∀ {xs ys}, P xs → P ys → P (xs ++ ys))
    (hplain : ∀ {text}, Layout.Plain text → P text) (hliteral : ∀ s, P (StringLiteral.literal s))
    (pretty : Bool) (depth : Nat) :
    ∀ t : JsonTree, (∀ v ∈ t.scalars, P v.render) → P (t.render pretty depth)
  | scalar _ v, h => h v (List.mem_singleton_self v)
  | array _ [], _ => hplain (Layout.plain_of_all rfl)
  | array _ (t :: ts), h => by
    have hitems := renderItems_induction happend hplain hliteral pretty (depth + 1) (t :: ts) h
    rw [render]
    exact happend (happend (hplain (Layout.plain_of_all rfl)) hitems)
      (hplain (Layout.plain_of_all rfl))
  | object _ [], _ => hplain (Layout.plain_of_all rfl)
  | object _ (t :: ts), h => by
    have hmembers := renderMembers_induction happend hplain hliteral pretty (depth + 1) (t :: ts) h
    rw [render]
    exact happend (happend (hplain (Layout.plain_objectStart pretty)) hmembers)
      (hplain (Layout.plain_objectEnd pretty depth))
  | reference _ target, h =>
    render_induction happend hplain hliteral pretty depth target h

theorem renderItems_induction (happend : ∀ {xs ys}, P xs → P ys → P (xs ++ ys))
    (hplain : ∀ {text}, Layout.Plain text → P text) (hliteral : ∀ s, P (StringLiteral.literal s))
    (pretty : Bool) (depth : Nat) :
    ∀ ts : List JsonTree, (∀ v ∈ scalarsOf ts, P v.render) → P (renderItems pretty depth ts)
  | [], _ => hplain Layout.plain_nil
  | t :: ts, h => by
    obtain ⟨ht, hts⟩ := List.forall_mem_append.1 h
    have hitem := render_induction happend hplain hliteral pretty depth t ht
    rw [renderItems]
    exact happend (happend hitem (hplain (Layout.plain_itemEnd pretty ts.isEmpty)))
      (renderItems_induction happend hplain hliteral pretty depth ts hts)

theorem renderMembers_induction (happend : ∀ {xs ys}, P xs → P ys → P (xs ++ ys))
    (hplain : ∀ {text}, Layout.Plain text → P text) (hliteral : ∀ s, P (StringLiteral.literal s))
    (pretty : Bool) (depth : Nat) :
    ∀ ts : List JsonTree, (∀ v ∈ scalarsOf ts, P v.render) → P (renderMembers pretty depth ts)
  | [], _ => hplain Layout.plain_nil
  | t :: ts, h => by
    obtain ⟨ht, hts⟩ := List.forall_mem_append.1 h
    have hname := happend (hplain (Layout.plain_memberIndent pretty depth))
      (hliteral (t.label.key.getD ""))
    have hmember := happend (happend hname (hplain (Layout.plain_nameSeparator pretty)))
      (render_induction happend hplain hliteral pretty depth t ht)
    rw [renderMembers]
    exact happend (happend hmember (hplain (Layout.plain_memberEnd pretty ts.isEmpty)))
      (renderMembers_induction happend hplain hliteral pretty depth ts hts)

end

/-- No zero byte is written but by a scalar. -/
theorem zero_not_mem_render (pretty : Bool) (depth : Nat) (t : JsonTree)
    (h : ∀ v ∈ t.scalars, 0 ∉ v.render) : 0 ∉ t.render pretty depth :=
  render_induction (fun hx hy hzero => (List.mem_append.1 hzero).elim hx hy)
    Layout.Plain.zero_not_mem (fun s => StringLiteral.zero_not_mem_quoted s.encode)
    pretty depth t h

theorem wellFormed_render (pretty : Bool) (depth : Nat) (t : JsonTree) :
    Utf8.WellFormed (t.render pretty depth) := by
  refine render_induction Utf8.WellFormed.append Layout.Plain.wellFormed
    StringLiteral.wellFormed_literal pretty depth t fun v _ => ?_
  cases v with
  | bool value => cases value <;> exact Utf8.wellFormed_encode _
  | string s => exact StringLiteral.wellFormed_literal s
  | _ => exact Utf8.wellFormed_encode _

end JsonTree

end LinkedJson
