import LinkedJson.Proofs.Literal.NumberParts
import LinkedJson.Text.Utf8

/-!
# The strict grammar

JSON as its standard has it, without what a lenient reader allows beyond: four blanks, numbers
without spare zeros and with digits on both sides of a point, and strings in which quotes,
backslashes and the characters below 32 are escaped. A derivation is made of these parts only;
neither reading nor writing is mentioned. `bytes` is the text that is derived, `blanks` what stands
between its tokens.
-/

namespace LinkedJson.Strict

open Ascii

/-! ## Tokens -/

/-- A run of blanks, tabs, line feeds and carriage returns, which may be empty. -/
structure Blanks where
  bytes : List UInt8
  isBlank : ∀ b ∈ bytes, b = 0x20 ∨ b = 0x09 ∨ b = lineFeed ∨ b = 0x0d

def Blanks.none : Blanks :=
  ⟨[], fun _ h => nomatch h⟩

/-- One character of a string, or one escape. -/
inductive StringItem where
  | plain (c : Char) (h : 0x20 ≤ c.toNat ∧ c ≠ '"' ∧ c ≠ '\\')
  | short (letter : UInt8) (h : letter ∈ [quote, backslash, slash, 0x62, 0x66, 0x6e, 0x72, 0x74])
  | code (digits : List UInt8) (h : digits.length = 4 ∧ ∀ d ∈ digits, (hexValue? d).isSome = true)

def StringItem.bytes : StringItem → List UInt8
  | plain c _ => String.utf8EncodeChar c
  | short letter _ => [backslash, letter]
  | code digits _ => backslash :: 0x75 :: digits

/-- A string with its quotes. -/
def stringBytes (items : List StringItem) : List UInt8 :=
  quote :: items.flatMap StringItem.bytes ++ [quote]

/-- A number: its whole part is zero or does not begin with a zero, and behind a point there are
digits. -/
structure Number extends NumberLiteral.Parts where
  whole_ne_nil : whole ≠ []
  leading : whole = [zero] ∨ ∀ b ∈ whole.head?, b ≠ zero
  fraction_ne_nil : ∀ digits ∈ fraction, digits ≠ []

/-! ## Productions -/

mutual

/-- A value. -/
inductive Value where
  | null
  | bool (value : Bool)
  | string (items : List StringItem)
  | number (number : Number)
  | emptyArray (inside : Blanks)
  | array (items : Items)
  | emptyObject (inside : Blanks)
  | object (members : Members)

/-- One value or more, with commas between them. -/
inductive Items where
  | last (before : Blanks) (value : Value) (after : Blanks)
  | more (before : Blanks) (value : Value) (after : Blanks) (rest : Items)

/-- One member or more, with commas between them. A member is a name, a colon and a value. -/
inductive Members where
  | last (before : Blanks) (name : List StringItem) (beforeColon afterColon : Blanks) (value : Value)
    (after : Blanks)
  | more (before : Blanks) (name : List StringItem) (beforeColon afterColon : Blanks) (value : Value)
    (after : Blanks) (rest : Members)

end

/-- A whole text: one value with blanks around it. -/
structure Text where
  before : Blanks
  value : Value
  after : Blanks

/-! ## What a derivation writes -/

mutual

/-- The text of a value. -/
def Value.bytes : Value → List UInt8
  | .null => Utf8.encode "null"
  | .bool true => Utf8.encode "true"
  | .bool false => Utf8.encode "false"
  | .string items => stringBytes items
  | .number number => number.bytes
  | .emptyArray inside => openBracket :: (inside.bytes ++ [closeBracket])
  | .array items => openBracket :: (items.bytes ++ [closeBracket])
  | .emptyObject inside => openBrace :: (inside.bytes ++ [closeBrace])
  | .object members => openBrace :: (members.bytes ++ [closeBrace])

def Items.bytes : Items → List UInt8
  | .last before value after => before.bytes ++ (value.bytes ++ after.bytes)
  | .more before value after rest =>
    before.bytes ++ (value.bytes ++ (after.bytes ++ comma :: rest.bytes))

def Members.bytes : Members → List UInt8
  | .last before name beforeColon afterColon value after =>
    before.bytes ++ (stringBytes name ++ (beforeColon.bytes ++
      colon :: (afterColon.bytes ++ (value.bytes ++ after.bytes))))
  | .more before name beforeColon afterColon value after rest =>
    before.bytes ++ (stringBytes name ++ (beforeColon.bytes ++
      colon :: (afterColon.bytes ++ (value.bytes ++ (after.bytes ++ comma :: rest.bytes)))))

end

def Text.bytes (t : Text) : List UInt8 :=
  t.before.bytes ++ (t.value.bytes ++ t.after.bytes)

mutual

/-- The blanks inside of a value, one after the other. -/
def Value.blanks : Value → List UInt8
  | .null | .bool _ | .string _ | .number _ => []
  | .emptyArray inside | .emptyObject inside => inside.bytes
  | .array items => items.blanks
  | .object members => members.blanks

def Items.blanks : Items → List UInt8
  | .last before value after => before.bytes ++ (value.blanks ++ after.bytes)
  | .more before value after rest =>
    before.bytes ++ (value.blanks ++ (after.bytes ++ rest.blanks))

def Members.blanks : Members → List UInt8
  | .last before _ beforeColon afterColon value after =>
    before.bytes ++ (beforeColon.bytes ++ (afterColon.bytes ++ (value.blanks ++ after.bytes)))
  | .more before _ beforeColon afterColon value after rest =>
    before.bytes ++ (beforeColon.bytes ++ (afterColon.bytes ++ (value.blanks ++
      (after.bytes ++ rest.blanks))))

end

def Text.blanks (t : Text) : List UInt8 :=
  t.before.bytes ++ (t.value.blanks ++ t.after.bytes)

end LinkedJson.Strict
