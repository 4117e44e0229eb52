import LinkedJson.Buffer.Literal
import LinkedJson.Document.Layout
import LinkedJson.Fault
import LinkedJson.Number.Text
import LinkedJson.Tree.Basic

/-!
# Writing documents

A tree is written through a buffer, token by token. Each token is put at the offset with a zero byte
behind it, and the offset moves on before the next one; so a writer that runs out of room leaves the
tokens before that one in the storage. References are written as their targets. The first size of
the storage and the limit of nesting are whole numbers, negative ones too.
-/

namespace LinkedJson

/-- What a caller asks of the text of a document. -/
structure WriteOptions where
  /-- Line feeds and tabs between members, blanks between items. -/
  pretty : Bool := true
  /-- The first size of a growable buffer. -/
  sizeHint : Int := 256
  /-- Containers nest at most this deep. -/
  maxDepth : Int := 1000

/-- The outcome of a writer; a fault comes with the buffer as it was then. -/
abbrev Writing :=
  Except (WriteFault × Buffer)

namespace Writing

/-- The fault of a buffer without room. -/
def noRoom (b : Buffer) : Writing Buffer :=
  .error (if b.growable then .growthRefused else .bufferFull, b)

/-- Writes a text at the offset, which stays where it is. -/
def put (text : List UInt8) (b : Buffer) : Writing Buffer :=
  match b.write? (text.length + 1) text with
  | none => noRoom b
  | some b => .ok b

/-- Writes a text at the offset and moves the offset behind it. -/
def append (text : List UInt8) (b : Buffer) : Writing Buffer :=
  (put text b).map (·.advance text.length)

/-- Writes a string literal at the offset. -/
def literal (s : WideString) (b : Buffer) : Writing Buffer :=
  match b.writeLiteral s.encode with
  | .error _ => noRoom b
  | .ok b => .ok b

/-- Writes raw text at the offset. A zero byte inside it would end the output early. -/
def raw (text : WideString) (b : Buffer) : Writing Buffer :=
  if text.encode.contains 0 then .error (.rawHoldsNul, b) else put text.encode b

/-- Writes a value without parts at the offset. -/
def scalar (v : Scalar) (b : Buffer) : Writing Buffer :=
  match v with
  | .null => put (Utf8.encode "null") b
  | .bool true => put (Utf8.encode "true") b
  | .bool false => put (Utf8.encode "false") b
  | .number n => put (Utf8.encode n.text) b
  | .string s => literal s b
  | .raw text => raw text b

/-- Appends a text, if there is any. -/
def appendSome (text : List UInt8) (b : Buffer) : Writing Buffer :=
  if text.isEmpty then .ok b else append text b

mutual

/-- Writes a tree that stands inside `depth` containers. -/
def tree (options : WriteOptions) (depth : Nat) : JsonTree → Buffer → Writing Buffer
  | .scalar _ v, b => scalar v b
  | .array _ ts, b =>
    if options.maxDepth ≤ depth then .error (.nestingTooDeep options.maxDepth, b)
    else if ts.isEmpty then put (Utf8.encode "[]") b
    else do
      let b ← append (Utf8.encode "[") b
      let b ← items options (depth + 1) ts b
      put (Utf8.encode "]") b
  | .object _ ts, b =>
    if options.maxDepth ≤ depth then .error (.nestingTooDeep options.maxDepth, b)
    else if ts.isEmpty then put (Utf8.encode "\x7b\x7d") b
    else do
      let b ← append (Layout.objectStart options.pretty) b
      let b ← members options (depth + 1) ts b
      put (Layout.objectEnd options.pretty depth) b
  | .reference _ target, b => tree options depth target b

/-- Writes the items of an array. -/
def items (options : WriteOptions) (depth : Nat) : List JsonTree → Buffer → Writing Buffer
  | [], b => .ok b
  | t :: ts, b => do
    let b ← tree options depth t b
    let b ← appendSome (if ts.isEmpty then [] else Layout.itemSeparator options.pretty) b.settle
    items options depth ts b

/-- Writes the members of an object. A member without a name has the empty name. -/
def members (options : WriteOptions) (depth : Nat) : List JsonTree → Buffer → Writing Buffer
  | [], b => .ok b
  | t :: ts, b => do
    let b ← appendSome (Layout.memberIndent options.pretty depth) b
    let b ← literal (t.label.key.getD "") b
    let b ← append (Layout.nameSeparator options.pretty) b.settle
    let b ← tree options depth t b
    let b ← appendSome (Layout.memberEnd options.pretty ts.isEmpty) b.settle
    members options depth ts b

end

/-- Writes a whole document from the offset on and settles the offset behind it. -/
def document (options : WriteOptions) (t : JsonTree) (b : Buffer) : Writing Buffer :=
  (tree options 0 t b).map Buffer.settle

end Writing

namespace JsonTree

/-- The failure that a fault and its buffer amount to. -/
def writeFailure (e : WriteFault × Buffer) : WriteFailure :=
  ⟨e.1, e.2.offset.toNat⟩

/-- The text of a tree, written through a growable buffer, and the byte budget afterwards. The
budget is spent even if writing fails. -/
def print (options : WriteOptions) (budget : ByteBudget) (t : JsonTree) :
    Except WriteFailure String × ByteBudget :=
  match Buffer.create? options.sizeHint budget with
  | none => (.error ⟨.bufferRefused options.sizeHint, 0⟩, budget)
  | some b =>
    match Writing.document options t b with
    | .ok b => (.ok b.text, b.budget)
    | .error e => (.error (writeFailure e), e.2.budget)

/-- Writes the text of a tree and a zero byte into storage: the length of the text, and the storage
afterwards. -/
def printInto (options : WriteOptions) (target : Array UInt8) (t : JsonTree) :
    Except WriteFailure Nat × Array UInt8 :=
  match Writing.document options t (.fixed target) with
  | .ok b => (.ok b.offset.toNat, b.storage)
  | .error e => (.error (writeFailure e), e.2.storage)

end JsonTree

end LinkedJson
