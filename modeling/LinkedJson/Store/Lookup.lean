import LinkedJson.Store.Basic

/-!
# Looking nodes up

Items are found by their place and members by their name. Names are compared without regard to the
case of the letters A to Z, and the first match counts. Every look-up sees through references.
-/

namespace LinkedJson

/-- A code unit with the letters A to Z in lower case. -/
def foldCase (unit : UInt16) : UInt16 :=
  if 0x41 ≤ unit ∧ unit ≤ 0x5a then unit + 0x20 else unit

/-- Code units that differ at most in the case of the letters A to Z, unit by unit. -/
def sameUnits : List UInt16 → List UInt16 → Bool
  | [], [] => true
  | a :: as, b :: bs => foldCase a == foldCase b && sameUnits as bs
  | _, _ => false

/-- Two names that differ at most in the case of the letters A to Z. -/
def sameName (a b : WideString) : Bool :=
  sameUnits a.units b.units

/-- What kind of value a node holds. -/
inductive Kind where
  | null
  | bool
  | number
  | string
  | raw
  | array
  | object
  | reference
  deriving Repr, DecidableEq

namespace Content

def kind : Content → Kind
  | scalar .null => .null
  | scalar (.bool _) => .bool
  | scalar (.number _) => .number
  | scalar (.string _) => .string
  | scalar (.raw _) => .raw
  | array _ => .array
  | object _ => .object
  | reference _ => .reference

/-- The integer view of a value: the integer of a number, 1 for `true`, and 0 otherwise. -/
def intValue : Content → Int
  | scalar (.number n) => n.integer
  | scalar (.bool true) => 1
  | _ => 0

end Content

namespace Store

/-- The child at a place of a container. -/
def childAt? (s : Store) (parent : NodeId) (index : Int) : Option NodeId :=
  if index < 0 then none else (s.children parent)[index.toNat]?

/-- The first child of a container under a name. -/
def childNamed? (s : Store) (parent : NodeId) (name : WideString) : Option NodeId :=
  (s.children parent).find? fun id => (s.label id).key.any (sameName · name)

/-- The children of a node, or of the node it refers to. -/
def items (s : Store) (id : NodeId) : List NodeId :=
  s.children (s.resolve id)

def itemAt? (s : Store) (id : NodeId) (index : Int) : Option NodeId :=
  s.childAt? (s.resolve id) index

def memberNamed? (s : Store) (id : NodeId) (name : WideString) : Option NodeId :=
  s.childNamed? (s.resolve id) name

/-- A member has the name. -/
def hasMember (s : Store) (id : NodeId) (name : WideString) : Bool :=
  (s.memberNamed? id name).isSome

/-- The integer view of a node, or of the node it refers to. -/
def intValue (s : Store) (id : NodeId) : Int :=
  ((s.content? (s.resolve id)).map Content.intValue).getD 0

end Store

end LinkedJson
