import LinkedJson.Store.Basic

/-!
# Splicing siblings

The four ways to change a list of children. `append` puts a node behind the last child,
`insertBefore` in front of a given one, `unlink` takes a child out, and `replace` puts a node in a
child's place. A node that comes in has no siblings yet, and a node that goes out has none
afterwards. What comes in is meant to stand in no other list, and not above its new place.
-/

namespace LinkedJson.Store

/-- Makes two nodes neighbours. -/
def link (prev next : NodeId) (s : Store) : Store :=
  (s.setNext prev (some next)).setPrev next (some prev)

/-- Puts a node behind the last child. -/
def append (parent item : NodeId) (s : Store) : Store :=
  match (s.children parent).getLast? with
  | none => s.setChild parent (some item)
  | some last => s.link last item

/-- Lets a node, if there is one, name the sibling after it. -/
def setNextOf (id next : Option NodeId) (s : Store) : Store :=
  match id with
  | none => s
  | some id => s.setNext id next

/-- Lets a node, if there is one, name the sibling before it. -/
def setPrevOf (id prev : Option NodeId) (s : Store) : Store :=
  match id with
  | none => s
  | some id => s.setPrev id prev

/-- Lets whatever names the first of two places name the second: the parent if the place is that of
its first child, and the predecessor otherwise. -/
def redirect (parent : NodeId) (isFirst : Bool) (prev : Option NodeId) (item : Option NodeId)
    (s : Store) : Store :=
  if isFirst then s.setChild parent item else s.setNextOf prev item

/-- Puts a node in front of a child. -/
def insertBefore (parent child item : NodeId) (s : Store) : Store :=
  let prev := s.prev? child
  ((s.setNext item (some child)).setPrev item prev).setPrev child (some item)
    |>.redirect parent (s.child? parent == some child) prev (some item)

/-- Takes a child out of its list. -/
def unlink (parent item : NodeId) (s : Store) : Store :=
  let prev := s.prev? item
  let next := s.next? item
  let s := (s.setNextOf prev next).setPrevOf next prev
  let s := if s.child? parent == some item then s.setChild parent next else s
  (s.setPrev item none).setNext item none

/-- Puts a node in the place of a child, which is alone afterwards. -/
def replace (parent child item : NodeId) (s : Store) : Store :=
  let prev := s.prev? child
  let next := s.next? child
  let isFirst := s.child? parent == some child
  let s := ((s.setNext item next).setPrev item prev).setPrevOf next (some item)
  let s := s.redirect parent isFirst prev (some item)
  (s.setNext child none).setPrev child none

end LinkedJson.Store
