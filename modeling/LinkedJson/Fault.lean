import LinkedJson.Number.Whole
import LinkedJson.Text.Position

/-!
# What can go wrong

`ReadFault` lists the reasons why a text is not read and `WriteFault` the reasons why a tree is not
written. Each cause falls under one of thirteen codes and has one message. A `ReadFailure` also says
where the offending byte is, and a `WriteFailure` how much had been written.
-/

namespace LinkedJson

/-- The classes of faults that callers tell apart. -/
inductive FaultCode where
  | noInput
  | inputTooLarge
  | malformedValue
  | unterminatedString
  | invalidEscape
  | invalidUnicodeEscape
  | malformedNumber
  | missingColon
  | unterminatedContainer
  | trailingGarbage
  | nestingTooDeep
  | allocationFailure
  | bufferOverflow
  deriving Repr, DecidableEq

namespace FaultCode

/-- The word for a code in reports. -/
def name : FaultCode → String
  | noInput => "NoInput"
  | inputTooLarge => "InputTooLarge"
  | malformedValue => "MalformedValue"
  | unterminatedString => "UnterminatedString"
  | invalidEscape => "InvalidEscape"
  | invalidUnicodeEscape => "InvalidUnicodeEscape"
  | malformedNumber => "MalformedNumber"
  | missingColon => "MissingColon"
  | unterminatedContainer => "UnterminatedContainer"
  | trailingGarbage => "TrailingGarbage"
  | nestingTooDeep => "NestingTooDeep"
  | allocationFailure => "AllocationFailure"
  | bufferOverflow => "BufferOverflow"

/-- Every code, in the order of declaration. -/
def all : List FaultCode :=
  [noInput, inputTooLarge, malformedValue, unterminatedString, invalidEscape, invalidUnicodeEscape,
    malformedNumber, missingColon, unterminatedContainer, trailingGarbage, nestingTooDeep,
    allocationFailure, bufferOverflow]

/-- The code of a word. -/
def ofName? (word : String) : Option FaultCode :=
  all.find? (·.name == word)

end FaultCode

/-- Why a text is not read. -/
inductive ReadFault where
  | noInput
  | inputTooLarge (length : Nat) (limit : Int)
  | unexpectedEnd
  | unexpectedCharacter
  | expectedString
  | expectedMemberName
  | notUtf8
  | unterminatedString
  | unknownEscape (byte : UInt8)
  | incompleteUnicodeEscape
  | badUnicodeEscape
  | unpairedSurrogate
  | badLowSurrogate
  | codePointOutOfRange
  | badNumber
  | expectedColon
  | unterminatedArray
  | unterminatedObject
  | trailingData
  | nestingTooDeep (limit : Int)
  | nodeRefused
  deriving Repr, DecidableEq

namespace ReadFault

def code : ReadFault → FaultCode
  | noInput => .noInput
  | inputTooLarge .. => .inputTooLarge
  | unexpectedEnd | unexpectedCharacter | expectedString | expectedMemberName | notUtf8 =>
    .malformedValue
  | unterminatedString => .unterminatedString
  | unknownEscape _ => .invalidEscape
  | incompleteUnicodeEscape | badUnicodeEscape | unpairedSurrogate | badLowSurrogate
  | codePointOutOfRange => .invalidUnicodeEscape
  | badNumber => .malformedNumber
  | expectedColon => .missingColon
  | unterminatedArray | unterminatedObject => .unterminatedContainer
  | trailingData => .trailingGarbage
  | nestingTooDeep _ => .nestingTooDeep
  | nodeRefused => .allocationFailure

/-- The message of a fault. An unknown escape shows its byte as the Latin-1 character. -/
def message : ReadFault → String
  | noInput => "No input"
  | inputTooLarge length limit =>
    s!"Input exceeds maximum length ({length} > {Whole.text limit})"
  | unexpectedEnd => "Unexpected end of input"
  | unexpectedCharacter => "Unexpected character"
  | expectedString => "Expected string"
  | expectedMemberName => "Expected member name"
  | notUtf8 => "String is not valid UTF-8"
  | unterminatedString => "Unterminated string"
  | unknownEscape byte => "Invalid escape sequence \\" ++ String.singleton (Char.ofNat byte.toNat)
  | incompleteUnicodeEscape => "Incomplete \\u escape"
  | badUnicodeEscape => "Invalid \\u escape"
  | unpairedSurrogate => "Unpaired high surrogate"
  | badLowSurrogate => "Invalid low surrogate"
  | codePointOutOfRange => "Codepoint out of range"
  | badNumber => "Invalid number"
  | expectedColon => "Expected :"
  | unterminatedArray => "Expected , or ]"
  | unterminatedObject => "Expected , or \x7d"
  | trailingData => "Unexpected data after JSON value"
  | nestingTooDeep limit => s!"Maximum nesting depth exceeded ({Whole.text limit})"
  | nodeRefused => "Allocator refused a node"

end ReadFault

/-- Why a tree is not written. -/
inductive WriteFault where
  | nestingTooDeep (limit : Int)
  | rawHoldsNul
  | growthRefused
  | bufferFull
  | bufferRefused (size : Int)
  deriving Repr, DecidableEq

namespace WriteFault

def code : WriteFault → FaultCode
  | nestingTooDeep _ => .nestingTooDeep
  | rawHoldsNul => .malformedValue
  | growthRefused | bufferRefused _ => .allocationFailure
  | bufferFull => .bufferOverflow

def message : WriteFault → String
  | nestingTooDeep limit => s!"Maximum nesting depth exceeded ({Whole.text limit})"
  | rawHoldsNul => "Raw fragment contains a NUL byte"
  | growthRefused => "Could not grow output buffer"
  | bufferFull => "Output does not fit the buffer"
  | bufferRefused size => s!"Could not allocate a {Whole.text size}-byte output buffer"

end WriteFault

/-- A text that was not read: the fault and the first offending byte. -/
structure ReadFailure where
  fault : ReadFault
  position : Position
  deriving Repr, DecidableEq

/-- A tree that was not written: the fault and the length of the output so far. -/
structure WriteFailure where
  fault : WriteFault
  byteOffset : Nat
  deriving Repr, DecidableEq

/-- Outcomes are compared by what they hold. -/
instance decidableEqExcept {ε α : Type} [DecidableEq ε] [DecidableEq α] : DecidableEq (Except ε α)
  | .ok a, .ok b => decidable_of_iff (a = b) (by simp)
  | .error e, .error f => decidable_of_iff (e = f) (by simp)
  | .ok _, .error _ => isFalse (by simp)
  | .error _, .ok _ => isFalse (by simp)

/-- Two steps succeed together if each of them does. -/
theorem bind_eq_ok_iff {ε α β : Type} {x : Except ε α} {f : α → Except ε β} {r : β} :
    (x >>= f) = .ok r ↔ ∃ a, x = .ok a ∧ f a = .ok r := by
  cases x with
  | error e =>
    constructor
    · intro h
      cases h
    · rintro ⟨a, h, -⟩
      cases h
  | ok a =>
    constructor
    · intro h
      exact ⟨a, rfl, h⟩
    · rintro ⟨a', h, hf⟩
      cases h
      exact hf

theorem eq_ok_of_toOption {ε α : Type} {x : Except ε α} {a : α} (h : x.toOption = some a) :
    x = .ok a := by
  cases x with
  | error e => cases h
  | ok b =>
    cases h
    rfl

end LinkedJson
