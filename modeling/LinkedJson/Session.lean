import LinkedJson.Store.Document

/-!
# Sessions

A session is a store and, beside it, the code of the last failure. Every document that is not read
or not written is reported to the session.
-/

namespace LinkedJson

/-- A store and the code of the last failure reported. -/
structure Session where
  store : Store
  last : Option FaultCode

namespace Session

def empty (arena : Option Arena) : Session :=
  ⟨.empty arena, none⟩

/-- Reports a failure. -/
def report (code : FaultCode) (s : Session) : Session :=
  { s with last := some code }

/-- Runs an operation with the arena set aside: it neither counts nodes and bytes nor refuses
any. -/
def withoutArena {α : Type} (f : Session → α × Session) (s : Session) : α × Session :=
  let (a, t) := f { s with store := { s.store with arena := none } }
  (a, { t with store := { t.store with arena := s.store.arena } })

/-- Reads a document into the store: its root and the offset behind it. -/
def parse (options : ReadOptions) (bytes : List UInt8) (s : Session) :
    Except ReadFailure (NodeId × Nat) × Session :=
  match s.store.read options bytes with
  | (.ok (root, stop), store) => (.ok (root, stop), { s with store })
  | (.error e, store) => (.error e, { s with store }.report e.fault.code)

/-- Writes the tree under a node. -/
def print (options : WriteOptions) (id : NodeId) (s : Session) :
    Except WriteFailure String × Session :=
  match s.store.print options id with
  | (.ok text, store) => (.ok text, { s with store })
  | (.error e, store) => (.error e, { s with store }.report e.fault.code)

/-- Writes the tree under a node into storage: the length of the text, and the storage
afterwards. -/
def printInto (options : WriteOptions) (target : Array UInt8) (id : NodeId) (s : Session) :
    (Except WriteFailure Nat × Array UInt8) × Session :=
  match (s.store.tree id).printInto options target with
  | (.ok n, target) => ((.ok n, target), s)
  | (.error e, target) => ((.error e, target), s.report e.fault.code)

end Session

end LinkedJson
