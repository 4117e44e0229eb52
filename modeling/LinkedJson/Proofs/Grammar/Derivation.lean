import LinkedJson.Proofs.Literal.NumberParts
import LinkedJson.Proofs.Literal.StringExtent
import LinkedJson.Tree.Basic

/-!
# Derivations of documents

`Value` is a derivation of one value in the grammar of documents: blanks, tokens and brackets as
they stand in the text. Each token carries the reading that makes it a token, so every derivation is
well-formed. `bytes` is the text that is derived, `tree` the value that it denotes, and `nesting`
how deep its containers stand in each other.

The grammar is unambiguous: a text has at most one derivation (`Text.bytes_injective`). The first
byte of a value tells its production, and what may follow a value (`Follows`) cannot prolong it.
-/

namespace LinkedJson.Grammar

open Ascii

/-! ## Tokens -/

/-- A run of blanks, which may be empty. -/
@[ext] structure Blanks where
  bytes : List UInt8
  isBlank : ∀ b ∈ bytes, isBlank b = true

def Blanks.none : Blanks :=
  ⟨[], by simp⟩

/-- A string literal and the string that it stands for. -/
structure StringToken where
  literal : List UInt8
  value : String
  read_literal : StringLiteral.read literal = .ok (value, [])

/-- A number literal that begins with a minus or a digit, and the double nearest to it. -/
structure NumberToken where
  literal : List UInt8
  value : Double
  read_literal : NumberLiteral.read literal = .ok (value, [])
  head : ∃ b ∈ literal.head?, b = minus ∨ isDigit b = true

/-! ## Productions -/

mutual

/-- A value. -/
inductive Value where
  | null
  | bool (value : Bool)
  | string (token : StringToken)
  | number (token : NumberToken)
  | emptyArray (inside : Blanks)
  | array (items : Items)
  | emptyObject (inside : Blanks)
  | object (members : Members)

/-- One value or more, with blanks around each and commas between them. -/
inductive Items where
  | last (before : Blanks) (value : Value) (after : Blanks)
  | more (before : Blanks) (value : Value) (after : Blanks) (rest : Items)

/-- One member or more. A member is a name, a colon and a value, with blanks around each. -/
inductive Members where
  | last (before : Blanks) (name : StringToken) (beforeColon afterColon : Blanks) (value : Value)
    (after : Blanks)
  | more (before : Blanks) (name : StringToken) (beforeColon afterColon : Blanks) (value : Value)
    (after : Blanks) (rest : Members)

end

/-- A whole text: one value with blanks around it. -/
structure Text where
  before : Blanks
  value : Value
  after : Blanks

/-! ## What a derivation writes -/

mutual

/-- The text of a value. -/
def Value.bytes : Value → List UInt8
  | .null => Utf8.encode "null"
  | .bool true => Utf8.encode "true"
  | .bool false => Utf8.encode "false"
  | .string token => token.literal
  | .number token => token.literal
  | .emptyArray inside => openBracket :: (inside.bytes ++ [closeBracket])
  | .array items => openBracket :: (items.bytes ++ [closeBracket])
  | .emptyObject inside => openBrace :: (inside.bytes ++ [closeBrace])
  | .object members => openBrace :: (members.bytes ++ [closeBrace])

def Items.bytes : Items → List UInt8
  | .last before value after => before.bytes ++ (value.bytes ++ after.bytes)
  | .more before value after rest =>
    before.bytes ++ (value.bytes ++ (after.bytes ++ comma :: rest.bytes))

def Members.bytes : Members → List UInt8
  | .last before name beforeColon afterColon value after =>
    before.bytes ++ (name.literal ++ (beforeColon.bytes ++
      colon :: (afterColon.bytes ++ (value.bytes ++ after.bytes))))
  | .more before name beforeColon afterColon value after rest =>
    before.bytes ++ (name.literal ++ (beforeColon.bytes ++
      colon :: (afterColon.bytes ++ (value.bytes ++ (after.bytes ++ comma :: rest.bytes)))))

end

def Text.bytes (t : Text) : List UInt8 :=
  t.before.bytes ++ (t.value.bytes ++ t.after.bytes)

/-! ## What a derivation denotes -/

mutual

/-- The tree of a value. -/
def Value.tree : Value → JsonTree
  | .null => .scalar .none .null
  | .bool value => .scalar .none (.bool value)
  | .string token => .scalar .none (.string token.value)
  | .number token => .scalar .none (.number (.ofDouble token.value))
  | .emptyArray _ => .array .none []
  | .array items => .array .none items.trees
  | .emptyObject _ => .object .none []
  | .object members => .object .none members.trees

def Items.trees : Items → List JsonTree
  | .last _ value _ => [value.tree]
  | .more _ value _ rest => value.tree :: rest.trees

/-- The members in order, each under its name. Names may occur more than once. -/
def Members.trees : Members → List JsonTree
  | .last _ name _ _ value _ => [value.tree.withLabel (.owned name.value)]
  | .more _ name _ _ value _ rest => value.tree.withLabel (.owned name.value) :: rest.trees

end

mutual

/-- The greatest number of containers that stand in each other. -/
def Value.nesting : Value → Nat
  | .null | .bool _ | .string _ | .number _ => 0
  | .emptyArray _ | .emptyObject _ => 1
  | .array items => items.nesting + 1
  | .object members => members.nesting + 1

def Items.nesting : Items → Nat
  | .last _ value _ => value.nesting
  | .more _ value _ rest => max value.nesting rest.nesting

def Members.nesting : Members → Nat
  | .last _ _ _ _ value _ => value.nesting
  | .more _ _ _ _ value _ rest => max value.nesting rest.nesting

end

end LinkedJson.Grammar
