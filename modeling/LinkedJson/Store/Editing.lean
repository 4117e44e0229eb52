import LinkedJson.Store.Creation
import LinkedJson.Store.Links
import LinkedJson.Store.Lookup
import LinkedJson.Store.Release

/-!
# Editing containers

Items enter an array without a name and members enter an object under one. A node that is replaced
or erased is released; a node that is detached stands alone afterwards.
-/

namespace LinkedJson.Store

/-! ## Adding -/

/-- Puts an item behind the last one. -/
def pushItem (array item : NodeId) (s : Store) : Store :=
  (s.setLabel item .none).append array item

/-- Puts a member behind the last one, under a name that belongs to the tree. -/
def pushMember (object : NodeId) (name : WideString) (item : NodeId) (s : Store) : Store :=
  (s.setLabel item (.owned name)).append object item

/-- Puts a member behind the last one, under a name that the caller lends. -/
def pushLentMember (object : NodeId) (name : WideString) (item : NodeId) (s : Store) : Store :=
  (s.setLabel item (.borrowed name)).append object item

/-- Puts a new reference to a node behind the last item. -/
def pushItemReference? (array target : NodeId) (s : Store) : Option Store :=
  (s.createReference? target).map fun (id, s) => s.pushItem array id

/-- Puts a new reference to a node behind the last member. -/
def pushMemberReference? (object : NodeId) (name : WideString) (target : NodeId) (s : Store) :
    Option Store :=
  (s.createReference? target).map fun (id, s) => s.pushMember object name id

/-- Puts an item in front of the one at a place, or behind the last one if there is none at that
place. There are no places below 0. -/
def insertItem? (array : NodeId) (index : Int) (item : NodeId) (s : Store) : Option Store :=
  if index < 0 then none
  else
    let s := s.setLabel item .none
    match s.childAt? array index with
    | none => some (s.append array item)
    | some child => some (s.insertBefore array child item)

/-! ## Replacing -/

/-- Puts an item in the place of a child, which is released. -/
def replaceChild (parent child item : NodeId) (s : Store) : Store :=
  (s.replace parent child item).release child

/-- Puts an item in the place of the one at an index. -/
def replaceItem? (array : NodeId) (index : Int) (item : NodeId) (s : Store) : Option Store :=
  (s.childAt? array index).map fun child =>
    (s.setLabel item .none).replaceChild array child item

/-- Puts a member in the place of the one under a name, spelled as given from then on. -/
def replaceMember? (object : NodeId) (name : WideString) (item : NodeId) (s : Store) :
    Option Store :=
  (s.childNamed? object name).map fun child =>
    (s.setLabel item (.owned name)).replaceChild object child item

/-! ## Taking out -/

/-- Takes out the child at an index. -/
def detachItem? (parent : NodeId) (index : Int) (s : Store) : Option (NodeId × Store) :=
  (s.childAt? parent index).map fun child => (child, s.unlink parent child)

/-- Takes out the member under a name. -/
def detachMember? (object : NodeId) (name : WideString) (s : Store) : Option (NodeId × Store) :=
  (s.childNamed? object name).map fun child => (child, s.unlink object child)

/-- Takes out and releases the child at an index, if there is one. -/
def eraseItem (parent : NodeId) (index : Int) (s : Store) : Store :=
  match s.detachItem? parent index with
  | none => s
  | some (child, s) => s.release child

/-- Takes out and releases the member under a name, if there is one. -/
def eraseMember (object : NodeId) (name : WideString) (s : Store) : Store :=
  match s.detachMember? object name with
  | none => s
  | some (child, s) => s.release child

/-! ## Changing values in place -/

/-- Changes the value of a node without parts. -/
def modifyScalar (id : NodeId) (f : Scalar → Scalar) (s : Store) : Store :=
  s.modify id fun c =>
    match c.content with
    | .scalar v => { c with content := .scalar (f v) }
    | _ => c

/-- Gives a number node another double, and the integer that goes with it. -/
def setNumber (id : NodeId) (d : Double) : Store → Store :=
  modifyScalar id fun
    | .number _ => .number (.ofDouble d)
    | v => v

/-- Gives a number node another integer and leaves its double alone. -/
def setInteger (id : NodeId) (i : Int) : Store → Store :=
  modifyScalar id fun
    | .number n => .number { n with integer := i }
    | v => v

def setBool (id : NodeId) (value : Bool) : Store → Store :=
  modifyScalar id fun
    | .bool _ => .bool value
    | v => v

/-- Gives a string node or a raw node another text. -/
def setText (id : NodeId) (text : WideString) : Store → Store :=
  modifyScalar id fun
    | .string _ => .string text
    | .raw _ => .raw text
    | v => v

/-- Gives a node another name and leaves alone who owns it. -/
def setKey (id : NodeId) (key : Option WideString) (s : Store) : Store :=
  s.setLabel id { s.label id with key }

end LinkedJson.Store
