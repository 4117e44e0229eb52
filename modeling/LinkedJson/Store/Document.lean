import LinkedJson.Document.Reading
import LinkedJson.Document.Writing
import LinkedJson.Store.Creation

/-!
# Documents and the store

A document that is read takes its nodes from the arena of a store, and a document that is written
takes its buffer from the byte budget of that arena. The children of a container that is still open
are a chain of siblings without a parent; the container takes its node behind them.
-/

namespace LinkedJson

namespace Store

/-- The byte budget of the arena. -/
def bytes (s : Store) : ByteBudget :=
  (s.arena.map Arena.bytes).getD .unlimited

/-- Records what is left of the byte budget. -/
def withBytes (s : Store) (bytes : ByteBudget) : Store :=
  { s with arena := s.arena.map fun a => { a with bytes } }

/-- Builds documents out of nodes of a store. -/
def builder : Builder Store NodeId OpenChain where
  scalar v := create? (.scalar v)
  array children := create? (.array children.head)
  object children := create? (.object children.head)
  childless := .empty
  push := OpenChain.push
  rename name id s := (id, s.setLabel id (.owned name))
  abandon children := releaseAll children.head
  discard := release

/-- Reads a document into the store: its root and the offset behind it, and the store afterwards. -/
def read (options : ReadOptions) (bytes : List UInt8) (s : Store) :
    Except ReadFailure (NodeId × Nat) × Store :=
  builder.read options bytes s

/-- Reads a document into the store: its root, the offset behind it, and the store with its
nodes. -/
def parse (options : ReadOptions) (bytes : List UInt8) (s : Store) :
    Except ReadFailure (NodeId × Nat × Store) :=
  match s.read options bytes with
  | (.ok (root, stop), s) => .ok (root, stop, s)
  | (.error e, _) => .error e

/-- Writes the tree under a node. -/
def print (options : WriteOptions) (id : NodeId) (s : Store) :
    Except WriteFailure String × Store :=
  let (result, bytes) := (s.tree id).print options s.bytes
  (result, s.withBytes bytes)

end Store

end LinkedJson
