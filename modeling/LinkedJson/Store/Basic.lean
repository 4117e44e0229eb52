import LinkedJson.Buffer.Basic
import LinkedJson.Tree.Basic

/-!
# The store of linked nodes

Nodes live in numbered cells. A container names its first child, each node names the sibling after
it and the one before it, and a reference names the node it shows. `children` reads the list of
children off the links, and every operation is meant to be described by what it does to that list.

An arena counts the live nodes that were taken from it and may refuse more. Its limits are whole
numbers. A store without an arena refuses no node; there are no allocators but these two. Numbers of
cells are never used twice, so a node that was released keeps its number but has no links.
-/

namespace LinkedJson

/-- The number of a cell. -/
abbrev NodeId :=
  Nat

/-- What a node holds. -/
inductive Content where
  | scalar (value : Scalar)
  | array (child : Option NodeId)
  | object (child : Option NodeId)
  | reference (target : NodeId)

/-- A node: what it holds, its label, and the siblings around it. -/
structure Cell where
  content : Content
  label : Label
  next : Option NodeId
  prev : Option NodeId

namespace Content

/-- The first child of a container. -/
def child? : Content → Option NodeId
  | array child | object child => child
  | scalar _ | reference _ => none

/-- A container with another first child; other content has none. -/
def withChild (child : Option NodeId) : Content → Content
  | array _ => array child
  | object _ => object child
  | other => other

def isContainer : Content → Bool
  | array _ | object _ => true
  | scalar _ | reference _ => false

end Content

/-- A node outside any container. -/
def Cell.standalone (content : Content) : Cell :=
  ⟨content, .none, none, none⟩

/-- The nodes taken and not yet released, with the limits on nodes and bytes. -/
structure Arena where
  live : List NodeId
  maxNodes : Option Int
  bytes : ByteBudget

namespace Arena

/-- No node may be taken. -/
def isFull (a : Arena) : Bool :=
  match a.maxNodes with
  | none => false
  | some limit => limit ≤ a.live.length

end Arena

/-- All cells, and the arena that new nodes are taken from. Without an arena nodes are not
counted. -/
structure Store where
  cells : Array Cell
  arena : Option Arena

namespace Store

def empty (arena : Option Arena) : Store :=
  ⟨#[], arena⟩

/-! ## Reading links -/

def content? (s : Store) (id : NodeId) : Option Content :=
  s.cells[id]?.map Cell.content

def label (s : Store) (id : NodeId) : Label :=
  (s.cells[id]?.map Cell.label).getD .none

def next? (s : Store) (id : NodeId) : Option NodeId :=
  s.cells[id]?.bind Cell.next

def prev? (s : Store) (id : NodeId) : Option NodeId :=
  s.cells[id]?.bind Cell.prev

def child? (s : Store) (id : NodeId) : Option NodeId :=
  (s.content? id).bind Content.child?

/-- At most `n` siblings, from `head` on. -/
def chain (s : Store) : (n : Nat) → (head : Option NodeId) → List NodeId
  | 0, _ | _, none => []
  | n + 1, some id => id :: s.chain n (s.next? id)

/-- The siblings from `head` on. A chain without a loop is no longer than the store. -/
def siblings (s : Store) (head : Option NodeId) : List NodeId :=
  s.chain s.cells.size head

/-- The children of a container in order; other nodes have none. -/
def children (s : Store) (id : NodeId) : List NodeId :=
  s.siblings (s.child? id)

/-- The node that `id` shows: the target of a reference, and any other node itself. -/
def resolve (s : Store) (id : NodeId) : NodeId :=
  match s.content? id with
  | some (.reference target) => target
  | _ => id

/-- Each node of a list has the one before it as its predecessor, and the first one has `prev`. -/
def backLinked (s : Store) (prev : Option NodeId) : List NodeId → Bool
  | [] => true
  | id :: ids => s.prev? id == prev && s.backLinked (some id) ids

/-- The arena counts the node among its own. -/
def isLive (s : Store) (id : NodeId) : Option Bool :=
  s.arena.map fun a => a.live.contains id

/-! ## Writing cells -/

def modify (id : NodeId) (f : Cell → Cell) (s : Store) : Store :=
  { s with cells := s.cells.modify id f }

def setNext (id : NodeId) (next : Option NodeId) (s : Store) : Store :=
  s.modify id fun c => { c with next }

def setPrev (id : NodeId) (prev : Option NodeId) (s : Store) : Store :=
  s.modify id fun c => { c with prev }

def setChild (id : NodeId) (child : Option NodeId) (s : Store) : Store :=
  s.modify id fun c => { c with content := c.content.withChild child }

def setLabel (id : NodeId) (label : Label) (s : Store) : Store :=
  s.modify id fun c => { c with label }

def setContent (id : NodeId) (content : Content) (s : Store) : Store :=
  s.modify id fun c => { c with content }

/-! ## Taking nodes -/

/-- The arena takes no more nodes. -/
def isFull (s : Store) : Bool :=
  match s.arena with
  | none => false
  | some a => a.isFull

/-- Adds a cell under the next number, whether or not there is room. -/
def adopt (s : Store) (cell : Cell) : Store :=
  let id := s.cells.size
  { cells := s.cells.push cell, arena := s.arena.map fun a => { a with live := id :: a.live } }

/-- Adds cells one after another, whether or not there is room. -/
def adoptAll (s : Store) (cells : List Cell) : Store :=
  cells.foldl adopt s

/-- Takes a node from the arena. -/
def take? (s : Store) (cell : Cell) : Option Store :=
  if s.isFull then none else some (s.adopt cell)

/-! ## Laws -/

theorem getElem?_modify (s : Store) (id i : NodeId) (f : Cell → Cell) :
    (s.modify id f).cells[i]? = if id = i then s.cells[i]?.map f else s.cells[i]? := by
  simp only [modify, Array.getElem?_modify]

theorem getElem?_adopt (s : Store) (cell : Cell) (i : NodeId) :
    (s.adopt cell).cells[i]? = if i = s.cells.size then some cell else s.cells[i]? := by
  simp only [adopt, Array.getElem?_push]

@[simp] theorem size_modify (s : Store) (id : NodeId) (f : Cell → Cell) :
    (s.modify id f).cells.size = s.cells.size := by
  simp [modify]

@[simp] theorem size_adopt (s : Store) (cell : Cell) :
    (s.adopt cell).cells.size = s.cells.size + 1 := by
  simp [adopt]

@[simp] theorem arena_modify (s : Store) (id : NodeId) (f : Cell → Cell) :
    (s.modify id f).arena = s.arena :=
  rfl

end Store

end LinkedJson
