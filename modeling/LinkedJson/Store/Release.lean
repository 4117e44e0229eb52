import LinkedJson.Store.Basic

/-!
# Releasing nodes

Releasing a node releases the siblings after it and all that hangs from any of them. References are
released like other nodes, but not followed: their targets live on. A released node has no siblings
and no children, and keeps its value and its label.
-/

namespace LinkedJson

/-- A cell without links. -/
def Cell.cleared (c : Cell) : Cell :=
  { c with content := c.content.withChild none, next := none, prev := none }

namespace Store

/-- A node and what hangs from it, down to `depth` nodes below each other. -/
def ownedTo (s : Store) : (depth : Nat) → NodeId → List NodeId
  | 0, _ => []
  | depth + 1, id => id :: (s.children id).flatMap (s.ownedTo depth)

/-- A node and all that hangs from it. -/
def owned (s : Store) (id : NodeId) : List NodeId :=
  s.ownedTo s.cells.size id

/-- Clears the links of a node and strikes it from the live ones. -/
def clear (s : Store) (id : NodeId) : Store where
  cells := s.cells.modify id Cell.cleared
  arena := s.arena.map fun a => { a with live := a.live.erase id }

/-- Releases the siblings from `head` on. The children of each one go first, and the sibling after
it is looked up before its links are cleared. No way along the links is longer than `n`. -/
def releaseTo : (n : Nat) → (head : Option NodeId) → Store → Store
  | 0, _, s | _, none, s => s
  | n + 1, some id, s =>
    let next := s.next? id
    releaseTo n next ((releaseTo n (s.child? id) s).clear id)

/-- Releases the siblings from `head` on, if there are any, and all that hangs from them. -/
def releaseAll (head : Option NodeId) (s : Store) : Store :=
  releaseTo s.cells.size head s

/-- Releases a node, the siblings after it, and all that hangs from them. -/
def release (id : NodeId) (s : Store) : Store :=
  s.releaseAll (some id)

end Store

end LinkedJson
