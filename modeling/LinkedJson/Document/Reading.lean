import LinkedJson.Number.Literal
import LinkedJson.StringLiteral.Reading
import LinkedJson.Tree.Basic

/-!
# Reading documents

A reader by recursive descent over the unread bytes. Recursion goes down on the nesting levels that
are left, and the items of one container are read in a loop bounded by the unread text. Each value
takes a node when it is complete: a scalar when its token is read, a container after its closing
bracket. What a node is, and where it is taken from, is left to a `Builder`; a node that is refused
is a fault at the first byte of its value. Every way out of an open container first gives its
children back. `Document.read` builds trees and only counts them against a limit.

The limits of length and nesting are whole numbers, negative ones too.
-/

namespace LinkedJson

/-- How the values of a document become nodes of the type `ν`, from a state of the type `σ`. `κ` is
what stands for the children of a container that is still open. A node may be refused. -/
structure Builder (σ ν κ : Type) where
  /-- Takes a node for a value without parts. -/
  scalar : Scalar → σ → Option (ν × σ)
  /-- Takes a node for an array with the children read so far. -/
  array : κ → σ → Option (ν × σ)
  /-- Takes a node for an object with the members read so far. -/
  object : κ → σ → Option (ν × σ)
  /-- A container without children. -/
  childless : κ
  /-- Puts a node behind the children read so far. -/
  push : κ → ν → σ → κ × σ
  /-- Gives a node the name of a member. -/
  rename : String → ν → σ → ν × σ
  /-- Gives the children of an open container back. -/
  abandon : κ → σ → σ
  /-- Gives a node and all that hangs from it back. -/
  discard : ν → σ → σ

/-- Where a reader stands: the unread text and the state of its builder. -/
structure Cursor (σ : Type) where
  rest : List UInt8
  state : σ

namespace Cursor

def skipBlanks {σ : Type} (c : Cursor σ) : Cursor σ :=
  { c with rest := LinkedJson.skipBlanks c.rest }

end Cursor

/-- The outcome of a reader of values; a fault comes with the cursor at the offending byte. -/
abbrev Reading (σ : Type) :=
  Except (ReadFault × Cursor σ)

/-- A reader of values: it starts at a cursor and ends at the cursor behind the value. -/
abbrev Reader (σ α : Type) :=
  Cursor σ → Reading σ (α × Cursor σ)

/-- The bounds on one document: container nesting, and the commas of one container, of which there
are never more than the text has bytes. -/
structure ReadLimits where
  maxDepth : Int
  maxCommas : Nat

namespace Reading

open Ascii

/-- The text behind a byte, if it begins with that byte. -/
def afterByte? (b : UInt8) : List UInt8 → Option (List UInt8)
  | [] => none
  | c :: text => if c = b then some text else none

/-- The text behind a word, if it begins with that word. -/
def afterWord? (word : String) (text : List UInt8) : Option (List UInt8) :=
  if (Utf8.encode word).isPrefixOf text then some (text.drop (Utf8.encode word).length) else none

/-- A literal reader as a reader of values; a literal alone takes no node. -/
def ofScan {σ α : Type} (state : σ) : Scan (α × List UInt8) → Reading σ (α × Cursor σ)
  | .ok (a, rest) => .ok (a, ⟨rest, state⟩)
  | .error (fault, rest) => .error (fault, ⟨rest, state⟩)

variable {σ ν κ : Type} (b : Builder σ ν κ)

/-- Takes a node for a scalar that began at `start` and is read up to the cursor. -/
def scalar (start : List UInt8) (v : Scalar) : Reader σ ν := fun c =>
  match b.scalar v c.state with
  | none => .error (.nodeRefused, ⟨start, c.state⟩)
  | some (node, state) => .ok (node, ⟨c.rest, state⟩)

/-- Reads items with commas between them, at least one and at most one more than `commas`. The
cursor ends at the first byte behind the blanks after the last item. `children` holds what is
already read, and is given back if an item is at fault. -/
def separated (item : Reader σ ν) (commas : Nat) (children : κ) : Reader σ κ := fun c =>
  match item c with
  | .error (fault, c) => .error (fault, { c with state := b.abandon children c.state })
  | .ok (node, c) =>
    let (children, state) := b.push children node c.state
    let c := Cursor.skipBlanks { c with state }
    match commas, afterByte? comma c.rest with
    | commas + 1, some rest => separated item commas children (Cursor.skipBlanks { c with rest })
    | _, _ => .ok (children, c)

/-- Reads the closing bracket behind the children of a container that began at `start`. -/
def closing (close : UInt8) (unterminated : ReadFault) (take : κ → σ → Option (ν × σ))
    (start : List UInt8) (children : κ) : Reader σ ν := fun c =>
  match afterByte? close c.rest with
  | none => .error (unterminated, { c with state := b.abandon children c.state })
  | some rest =>
    match take children c.state with
    | none => .error (.nodeRefused, ⟨start, b.abandon children c.state⟩)
    | some (node, state) => .ok (node, ⟨rest, state⟩)

/-- Reads the items and the closing bracket of a container whose opening bracket stood at
`start`. -/
def container (limits : ReadLimits) (close : UInt8) (unterminated : ReadFault)
    (take : κ → σ → Option (ν × σ)) (item : Reader σ ν) (start : List UInt8) :
    Reader σ ν := fun c =>
  let c := c.skipBlanks
  if (afterByte? close c.rest).isSome then closing b close unterminated take start b.childless c
  else do
    let (children, c) ← separated b item limits.maxCommas b.childless c
    closing b close unterminated take start children c

/-- Reads a member: a name, a colon and a value. -/
def member (value : Reader σ ν) : Reader σ ν := fun c =>
  if (afterByte? quote c.rest).isNone then .error (.expectedMemberName, c)
  else do
    let (name, c) ← ofScan c.state (StringLiteral.read c.rest)
    let c := c.skipBlanks
    match afterByte? colon c.rest with
    | none => .error (.expectedColon, c)
    | some rest =>
      let (node, c) ← value (Cursor.skipBlanks { c with rest })
      let (node, state) := b.rename name node c.state
      return (node, { c with state })

/-- Reads a value that is no container, or finds that there is none. -/
def atom : Reader σ ν := fun c =>
  match afterWord? "null" c.rest, afterWord? "false" c.rest, afterWord? "true" c.rest with
  | some rest, _, _ => scalar b c.rest .null { c with rest }
  | _, some rest, _ => scalar b c.rest (.bool false) { c with rest }
  | _, _, some rest => scalar b c.rest (.bool true) { c with rest }
  | none, none, none =>
    match c.rest with
    | [] => .error (.unexpectedEnd, c)
    | first :: _ =>
      if first = quote then do
        let (s, after) ← ofScan c.state (StringLiteral.read c.rest)
        scalar b c.rest (.string s) after
      else if first = minus ∨ isDigit first then do
        let (d, after) ← ofScan c.state (NumberLiteral.read c.rest)
        scalar b c.rest (.number (.ofDouble d)) after
      else .error (.unexpectedCharacter, c)

/-- Reads a value whose containers hold values read by `inner`; without `inner` no container may
begin. -/
def valueWith (limits : ReadLimits) (inner : Option (Reader σ ν)) : Reader σ ν := fun c =>
  match afterByte? openBracket c.rest, afterByte? openBrace c.rest, inner with
  | none, none, _ => atom b c
  | _, _, none => .error (.nestingTooDeep limits.maxDepth, c)
  | some rest, _, some inner =>
    container b limits closeBracket .unterminatedArray b.array inner c.rest { c with rest }
  | none, some rest, some inner =>
    container b limits closeBrace .unterminatedObject b.object (member b inner) c.rest
      { c with rest }

/-- Reads a value inside of which `levels` containers may nest. -/
def value (limits : ReadLimits) : (levels : Nat) → Reader σ ν
  | 0 => fun c => valueWith b limits none c
  | levels + 1 => fun c => valueWith b limits (some fun c => value limits levels c) c

/-- Reads the value at the front of a text, after blanks. If the whole text is asked for, nothing
but blanks may follow, and the cursor ends behind them. -/
def document (limits : ReadLimits) (whole : Bool) (text : List UInt8) (state : σ) :
    Reading σ (ν × Cursor σ) := do
  let (node, c) ← value b limits limits.maxDepth.toNat (Cursor.skipBlanks ⟨text, state⟩)
  if whole then
    let c := c.skipBlanks
    if c.rest.isEmpty then .ok (node, c)
    else .error (.trailingData, { c with state := b.discard node c.state })
  else .ok (node, c)

end Reading

/-- What a caller asks of a document. -/
structure ReadOptions where
  /-- Nothing but blanks may follow the value. -/
  whole : Bool := false
  /-- Containers nest at most this deep. -/
  maxDepth : Int := 1000
  /-- The text has at most this many bytes. -/
  maxLength : Option Int := none

namespace ReadOptions

/-- The text is longer than the options allow. -/
def tooLong (options : ReadOptions) (bytes : List UInt8) : Option ReadFault :=
  match options.maxLength with
  | none => none
  | some limit => if limit < bytes.length then some (.inputTooLarge bytes.length limit) else none

end ReadOptions

/-- Reads a document out of bytes: its root and the offset behind it, and the state afterwards. -/
def Builder.read {σ ν κ : Type} (b : Builder σ ν κ) (options : ReadOptions) (bytes : List UInt8)
    (state : σ) : Except ReadFailure (ν × Nat) × σ :=
  if bytes.isEmpty then (.error ⟨.noInput, .ofOffset bytes 0⟩, state)
  else match options.tooLong bytes with
    | some fault => (.error ⟨fault, .ofOffset bytes 0⟩, state)
    | none =>
      let text := content bytes
      match Reading.document b ⟨options.maxDepth, text.length⟩ options.whole text state with
      | .ok (root, c) => (.ok (root, text.length - c.rest.length), c.state)
      | .error (fault, c) =>
        (.error ⟨fault, .ofOffset bytes (text.length - c.rest.length : Nat)⟩, c.state)

/-! ## Building trees -/

namespace JsonTree

/-- Counts one more value, unless the limit is reached. -/
def count? (maxNodes : Option Nat) (built : Nat) (t : JsonTree) : Option (JsonTree × Nat) :=
  match maxNodes with
  | none => some (t, built + 1)
  | some limit => if limit ≤ built then none else some (t, built + 1)

/-- Builds trees of at most `maxNodes` values. The state is the number of values completed, and the
children of an open container are kept last one first. -/
def builder (maxNodes : Option Nat) : Builder Nat JsonTree (List JsonTree) where
  scalar v built := count? maxNodes built (.scalar .none v)
  array children built := count? maxNodes built (.array .none children.reverse)
  object children built := count? maxNodes built (.object .none children.reverse)
  childless := []
  push children t built := (t :: children, built)
  rename name t built := (t.withLabel (.owned name), built)
  abandon _ built := built
  discard _ built := built

end JsonTree

/-- A document that was read: its tree and the offset behind it. -/
structure Document where
  tree : JsonTree
  stop : Nat

/-- Reads a document out of bytes, building at most `maxNodes` nodes. -/
def Document.read (options : ReadOptions) (maxNodes : Option Nat) (bytes : List UInt8) :
    Except ReadFailure Document :=
  ((JsonTree.builder maxNodes).read options bytes 0).1.map fun (tree, stop) => ⟨tree, stop⟩

end LinkedJson
