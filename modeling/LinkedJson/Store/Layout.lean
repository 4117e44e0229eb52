import LinkedJson.Store.Basic

/-!
# Trees in the store

`Store.tree` reads the tree that hangs from a node, and `graft` lays a tree out in fresh cells: a
node, then its children one after another, each child with all its cells before the next one. So the
first child of a node has the next number, and the sibling of a node comes after all of its cells.
-/

namespace LinkedJson

/-! ## Reading trees -/

namespace Store

/-- The tree under a node, down to `depth` nodes below each other. -/
def treeTo (s : Store) : (depth : Nat) → NodeId → JsonTree
  | 0, _ => .scalar .none .null
  | depth + 1, id =>
    match s.content? id with
    | none => .scalar .none .null
    | some (.scalar v) => .scalar (s.label id) v
    | some (.array _) => .array (s.label id) ((s.children id).map (s.treeTo depth))
    | some (.object _) => .object (s.label id) ((s.children id).map (s.treeTo depth))
    | some (.reference target) => .reference (s.label id) (s.treeTo depth target)

/-- The tree under a node. No path through a store without loops is longer than the store. -/
def tree (s : Store) (id : NodeId) : JsonTree :=
  s.treeTo s.cells.size id

end Store

/-! ## Laying trees out -/

namespace JsonTree

/-- The number of the first cell of a list of trees laid out from `base` on. -/
def headId (base : NodeId) : List JsonTree → Option NodeId
  | [] => none
  | _ :: _ => some base

mutual

/-- The cells of a tree laid out from number `base` on, between the given siblings. -/
def cells (base : NodeId) (prev next : Option NodeId) : JsonTree → List Cell
  | scalar l v => [⟨.scalar v, l, next, prev⟩]
  | array l items =>
    ⟨.array (headId (base + 1) items), l, next, prev⟩ :: chain (base + 1) none items
  | object l members =>
    ⟨.object (headId (base + 1) members), l, next, prev⟩ :: chain (base + 1) none members
  | reference l target =>
    ⟨.reference (base + 1), l, next, prev⟩ :: target.cells (base + 1) none none

/-- The cells of a list of siblings laid out from number `base` on, after the given one. -/
def chain (base : NodeId) (prev : Option NodeId) : List JsonTree → List Cell
  | [] => []
  | t :: ts =>
    t.cells base prev (headId (base + t.nodeCount) ts) ++ chain (base + t.nodeCount) (some base) ts

end

mutual

theorem length_cells (base : NodeId) (prev next : Option NodeId) (t : JsonTree) :
    (t.cells base prev next).length = t.nodeCount := by
  cases t with
  | scalar l v => simp [cells, nodeCount]
  | array l items => simp [cells, nodeCount, length_chain]
  | object l members => simp [cells, nodeCount, length_chain]
  | reference l target => simp [cells, nodeCount, length_cells]

theorem length_chain (base : NodeId) (prev : Option NodeId) (ts : List JsonTree) :
    (chain base prev ts).length = nodeCounts ts := by
  cases ts with
  | nil => simp [chain, nodeCounts]
  | cons t ts => simp [chain, nodeCounts, length_cells, length_chain]

end

end JsonTree

namespace Store

/-- Lays a tree out in fresh cells, whether or not there is room. -/
def graft (s : Store) (t : JsonTree) : NodeId × Store :=
  (s.cells.size, s.adoptAll (t.cells s.cells.size none none))

end Store

end LinkedJson
