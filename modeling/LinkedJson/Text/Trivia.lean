import LinkedJson.Text.Utf16

/-!
# Dropping blanks and comments

`stripTrivia` drops spaces, tabs, carriage returns, line feeds, line comments and block comments
from a text, except inside string literals. It does not ask whether the rest is a document. A
comment or a literal that is not closed reaches to the end of the text.

The text is gone through by its code units: 0x22 is a quote, 0x5c a backslash, 0x2f a slash, 0x2a an
asterisk and 0x0a a line feed.
-/

namespace LinkedJson.Trivia

/-- The blanks that are dropped. -/
def isBlank (c : UInt16) : Bool :=
  c == 0x20 || c == 0x09 || c == 0x0d || c == 0x0a

/-- The text behind a line comment; the line feed is not part of the comment. -/
def afterLine (text : List UInt16) : List UInt16 :=
  text.dropWhile (· ≠ 0x0a)

/-- The text behind the first end of a block comment. -/
def afterBlock : List UInt16 → List UInt16
  | 0x2a :: 0x2f :: text => text
  | _ :: text => afterBlock text
  | [] => []

/-- The length of a string literal behind its opening quote, the closing quote included, with `n`
units already counted. A backslash takes the unit after it along. -/
def literalLength (n : Nat) : List UInt16 → Nat
  | 0x22 :: _ => n + 1
  | 0x5c :: _ :: text => literalLength (n + 2) text
  | _ :: text => literalLength (n + 1) text
  | [] => n

theorem length_afterLine_le (text : List UInt16) : (afterLine text).length ≤ text.length :=
  (List.dropWhile_sublist _).length_le

theorem length_afterBlock_le (text : List UInt16) : (afterBlock text).length ≤ text.length := by
  fun_induction afterBlock text <;> simp_all <;> omega

/-- What is left of a list of code units. `out` holds, last unit first, what is already kept. -/
def strip (out : List UInt16) (text : List UInt16) : List UInt16 :=
  match text with
  | [] => out.reverse
  | c :: rest =>
    if isBlank c then strip out rest
    else if c = 0x2f ∧ rest.head? = some 0x2f then
      have := length_afterLine_le rest
      strip out (afterLine rest)
    else if c = 0x2f ∧ rest.head? = some 0x2a then
      have := length_afterBlock_le rest.tail
      strip out (afterBlock rest.tail)
    else if c = 0x22 then
      let n := literalLength 0 rest
      strip ((rest.take n).reverse ++ c :: out) (rest.drop n)
    else strip (c :: out) rest
  termination_by text.length
  decreasing_by all_goals grind

end Trivia

/-- The text without the blanks and comments outside its string literals. -/
def stripTrivia (text : WideString) : WideString :=
  ⟨Trivia.strip [] text.units⟩

end LinkedJson
