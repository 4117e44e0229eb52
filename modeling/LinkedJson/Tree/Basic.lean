import LinkedJson.Number.Basic
import LinkedJson.Text.Utf16

/-!
# JSON trees

A tree is what a linked document denotes: scalars, arrays and objects in order, and references that
show a value of another tree. Every node carries a label, its member name and who owns that name.
Strings and names are lists of code units, whether or not their surrogates come in pairs.
`copy` is a tree without references that denotes the same value.
-/

namespace LinkedJson

/-- Whether a member name belongs to the tree or is lent by the caller. -/
inductive Ownership where
  | owned
  | borrowed
  deriving Repr, DecidableEq

/-- The member name of a node; nodes outside objects have none. -/
structure Label where
  key : Option WideString
  ownership : Ownership
  deriving Repr, DecidableEq

namespace Label

/-- The label of a node that is no member. -/
def none : Label :=
  ⟨.none, .owned⟩

/-- The label of a member whose name belongs to the tree. -/
def owned (key : WideString) : Label :=
  ⟨some key, .owned⟩

/-- The label of a member whose name is lent. -/
def borrowed (key : WideString) : Label :=
  ⟨some key, .borrowed⟩

end Label

/-- A value without parts. A raw value is text that is printed as it stands. -/
inductive Scalar where
  | null
  | bool (value : Bool)
  | number (value : Number)
  | string (value : WideString)
  | raw (text : WideString)
  deriving DecidableEq

/-- A JSON value with its label. -/
inductive JsonTree where
  | scalar (label : Label) (value : Scalar)
  | array (label : Label) (items : List JsonTree)
  | object (label : Label) (members : List JsonTree)
  | reference (label : Label) (target : JsonTree)

namespace JsonTree

def label : JsonTree → Label
  | scalar l _ | array l _ | object l _ | reference l _ => l

/-- The same value under another label. -/
def withLabel (l : Label) : JsonTree → JsonTree
  | scalar _ v => scalar l v
  | array _ items => array l items
  | object _ members => object l members
  | reference _ target => reference l target

/-- The value that a tree shows: a reference shows its target. -/
def resolve : JsonTree → JsonTree
  | reference _ target => target.resolve
  | t => t

/-- A reference to a tree. A reference to a reference has the final target. -/
def refer (l : Label) (target : JsonTree) : JsonTree :=
  reference l target.resolve

mutual

/-- The number of nodes, targets included. -/
def nodeCount : JsonTree → Nat
  | scalar .. => 1
  | array _ items => nodeCounts items + 1
  | object _ members => nodeCounts members + 1
  | reference _ target => target.nodeCount + 1

/-- The number of nodes of a list of trees. -/
def nodeCounts : List JsonTree → Nat
  | [] => 0
  | t :: ts => t.nodeCount + nodeCounts ts

end

mutual

/-- The tree with each reference replaced by its target's value, under the reference's label. -/
def copy : JsonTree → JsonTree
  | scalar l v => scalar l v
  | array l items => array l (copyAll items)
  | object l members => object l (copyAll members)
  | reference l target => target.copy.withLabel l

/-- The copies of a list of trees. -/
def copyAll : List JsonTree → List JsonTree
  | [] => []
  | t :: ts => t.copy :: copyAll ts

end

/-- The root alone: a container without its children. -/
def copyRoot (t : JsonTree) : JsonTree :=
  match t.resolve with
  | array _ _ => array t.label []
  | object _ _ => object t.label []
  | other => other.withLabel t.label

@[simp] theorem label_withLabel (l : Label) (t : JsonTree) : (t.withLabel l).label = l := by
  cases t <;> rfl

@[simp] theorem withLabel_withLabel (l l' : Label) (t : JsonTree) :
    (t.withLabel l).withLabel l' = t.withLabel l' := by
  cases t <;> rfl

@[simp] theorem withLabel_label (t : JsonTree) : t.withLabel t.label = t := by
  cases t <;> rfl

@[simp] theorem nodeCount_withLabel (l : Label) (t : JsonTree) :
    (t.withLabel l).nodeCount = t.nodeCount := by
  cases t <;> rfl

@[simp] theorem label_copy (t : JsonTree) : t.copy.label = t.label := by
  cases t with
  | reference l target =>
    rw [copy, label_withLabel]
    rfl
  | _ => simp [copy, label]

theorem copyAll_eq_map (ts : List JsonTree) : copyAll ts = ts.map copy := by
  induction ts with
  | nil => rfl
  | cons t ts ih => simp [copyAll, ih]

end JsonTree

end LinkedJson
