import LinkedJson.Text.Ascii

/-!
# Lines and columns

A position names a byte offset by its line and its column, both from 1. Columns count bytes. An
offset is any whole number, and outside of the text it has a position too: past the end it lies on
the last line, and before the beginning on the first line, in a column below 1.
-/

namespace LinkedJson

/-- A place in a text. -/
structure Position where
  line : Int
  column : Int
  offset : Int
  deriving Repr, DecidableEq

namespace Position

/-- Goes through bytes, of which the first stands at offset `i`, on a line that begins at
`lineStart`: the line behind the last of them, and where that line begins. -/
def scanLines : List UInt8 → (i line lineStart : Nat) → Nat × Nat
  | [], _, line, lineStart => (line, lineStart)
  | b :: bytes, i, line, lineStart =>
    if b = Ascii.lineFeed then scanLines bytes (i + 1) (line + 1) (i + 1)
    else scanLines bytes (i + 1) line lineStart

/-- The position of a byte offset, found by going through the bytes before it. -/
def ofOffset (bytes : List UInt8) (offset : Int) : Position :=
  let (line, lineStart) := scanLines (bytes.take offset.toNat) 0 1 0
  { line, column := offset - lineStart + 1, offset }

end Position

end LinkedJson
