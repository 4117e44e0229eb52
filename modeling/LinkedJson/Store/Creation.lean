import LinkedJson.Store.Layout
import LinkedJson.Store.Links
import LinkedJson.Store.Release

/-!
# New nodes

Every new node stands alone. An operation that needs several nodes takes them one after another, and
when the arena refuses one of them it gives back those that it has taken.

The children of a container that is still being built are a chain of siblings without a parent.
-/

namespace LinkedJson

/-- A chain of siblings that have no parent yet. -/
structure OpenChain where
  head : Option NodeId
  last : Option NodeId

namespace OpenChain

def empty : OpenChain :=
  ⟨none, none⟩

/-- Puts a node behind the last sibling. -/
def push (chain : OpenChain) (id : NodeId) (s : Store) : OpenChain × Store :=
  match chain.last with
  | none => (⟨some id, some id⟩, s)
  | some last => (⟨chain.head, some id⟩, s.link last id)

/-- Puts a node that was asked for behind the last sibling. If it was refused, the chain is given
back. -/
def extend (chain : OpenChain) : Option NodeId × Store → Option OpenChain × Store
  | (none, s) => (none, s.releaseAll chain.head)
  | (some id, s) =>
    let (chain, s) := chain.push id s
    (some chain, s)

/-- Links do not matter to the arena. -/
theorem arena_push (chain : OpenChain) (id : NodeId) (s : Store) :
    (chain.push id s).2.arena = s.arena := by
  unfold push
  cases chain.last <;> rfl

/-- The chain of given siblings with one more. -/
theorem push_fst (ids : List NodeId) (id : NodeId) (s : Store) :
    (push ⟨ids.head?, ids.getLast?⟩ id s).1 = ⟨(ids ++ [id]).head?, (ids ++ [id]).getLast?⟩ := by
  unfold push
  rw [List.getLast?_concat]
  cases hlast : ids.getLast? with
  | none =>
    rw [List.getLast?_eq_none_iff.1 hlast]
    rfl
  | some last =>
    obtain ⟨i, hi⟩ : ∃ i, ids.head? = some i := by
      cases ids with
      | nil => cases hlast
      | cons i ids => exact ⟨i, rfl⟩
    rw [List.head?_append, hi]
    rfl

end OpenChain

namespace Store

/-- Takes one standalone node. -/
def create? (content : Content) (s : Store) : Option (NodeId × Store) :=
  (s.take? (.standalone content)).map (s.cells.size, ·)

/-- Without an arena every node is there to be taken. -/
theorem create?_of_heap {s : Store} (h : s.arena = none) (content : Content) :
    s.create? content = some (s.cells.size, s.adopt (.standalone content)) := by
  unfold create? take? isFull
  rw [h]
  rfl

/-- Takes a reference to what a node shows; a reference to a reference shows the final target. -/
def createReference? (target : NodeId) (s : Store) : Option (NodeId × Store) :=
  s.create? (.reference (s.resolve target))

/-! ## Several nodes -/

/-- Takes one standalone node under a label. -/
def createAs (l : Label) (content : Content) (s : Store) : Option NodeId × Store :=
  match s.create? content with
  | none => (none, s)
  | some (id, s) => (some id, s.setLabel id l)

/-- Gives a new container, if there is one, the children that a step builds. If one of them is
refused, the container is given back. -/
def fill (build : Store → Option OpenChain × Store) :
    Option NodeId × Store → Option NodeId × Store
  | (none, s) => (none, s)
  | (some id, s) =>
    match build s with
    | (none, s) => (none, s.release id)
    | (some chain, s) => (some id, s.setChild id chain.head)

theorem fill_of_refused {build : Store → Option OpenChain × Store} {id : NodeId} {s t : Store}
    (h : build s = (none, t)) : fill build (some id, s) = (none, t.release id) := by
  simp only [fill, h]

theorem fill_of_built {build : Store → Option OpenChain × Store} {id : NodeId} {s t : Store}
    {chain : OpenChain} (h : build s = (some chain, t)) :
    fill build (some id, s) = (some id, t.setChild id chain.head) := by
  simp only [fill, h]

mutual

/-- Builds a tree, its root first and under the given label. A reference is built as the value it
shows. -/
def buildTree (l : Label) : JsonTree → Store → Option NodeId × Store
  | .scalar _ v, s => s.createAs l (.scalar v)
  | .array _ items, s => fill (buildSiblings items .empty) (s.createAs l (.array none))
  | .object _ members, s => fill (buildSiblings members .empty) (s.createAs l (.object none))
  | .reference _ target, s => buildTree l target s

/-- Builds trees, each under its own label, behind the siblings of a chain. -/
def buildSiblings : List JsonTree → OpenChain → Store → Option OpenChain × Store
  | [], chain, s => (some chain, s)
  | t :: ts, chain, s =>
    match chain.extend (buildTree t.label t s) with
    | (none, s) => (none, s)
    | (some chain, s) => buildSiblings ts chain s

end

/-- Builds an array of values without parts. It takes its own node behind those of its items. -/
def createArrayOf (values : List Scalar) (s : Store) : Option NodeId × Store :=
  match buildSiblings (values.map (.scalar .none)) .empty s with
  | (none, s) => (none, s)
  | (some chain, s) =>
    match s.create? (.array chain.head) with
    | none => (none, s.releaseAll chain.head)
    | some (id, s) => (some id, s)

/-- Builds an array of numbers truncated to 32 bits. -/
def createIntArray (ds : List Double) : Store → Option NodeId × Store :=
  createArrayOf (ds.map fun d => .number (.ofTruncated d))

/-- Builds an array of numbers rounded to single precision. -/
def createFloatArray (ds : List Double) : Store → Option NodeId × Store :=
  createArrayOf (ds.map fun d => .number (.ofSingle d))

def createDoubleArray (ds : List Double) : Store → Option NodeId × Store :=
  createArrayOf (ds.map fun d => .number (.ofDouble d))

def createStringArray (texts : List WideString) : Store → Option NodeId × Store :=
  createArrayOf (texts.map .string)

/-- Copies a node with its label. A reference is copied as the value it shows. The children of a
container are copied only if `deep` is set. -/
def duplicate (deep : Bool) (id : NodeId) (s : Store) : Option NodeId × Store :=
  let t := s.tree id
  buildTree t.label (if deep then t else t.copyRoot) s

/-- The new array and the store with it. -/
def createArrayOf? (values : List Scalar) (s : Store) : Option (NodeId × Store) :=
  let (id?, s) := s.createArrayOf values
  id?.map (·, s)

/-- The copy and the store with it. -/
def duplicate? (deep : Bool) (id : NodeId) (s : Store) : Option (NodeId × Store) :=
  let (id?, s) := s.duplicate deep id
  id?.map (·, s)

theorem map_fst_createArrayOf? (values : List Scalar) (s : Store) :
    (s.createArrayOf? values).map Prod.fst = (s.createArrayOf values).1 := by
  unfold createArrayOf?
  rcases s.createArrayOf values with ⟨_ | id, t⟩ <;> rfl

theorem map_fst_duplicate? (deep : Bool) (id : NodeId) (s : Store) :
    (s.duplicate? deep id).map Prod.fst = (s.duplicate deep id).1 := by
  unfold duplicate?
  rcases s.duplicate deep id with ⟨_ | copy, t⟩ <;> rfl

end Store

end LinkedJson
