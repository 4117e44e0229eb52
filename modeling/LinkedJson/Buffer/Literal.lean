import LinkedJson.Buffer.Basic
import LinkedJson.StringLiteral.Writing

/-!
# String literals in a buffer

The room that a literal takes is counted before it is written. A text in which no byte needs an
escape is put between quotes as it stands, all of it or nothing.
-/

namespace LinkedJson.Buffer

open Ascii StringLiteral

/-- Why a literal is not written. -/
inductive LiteralFault where
  /-- There is no room for it. -/
  | noRoom
  /-- A text without escapes would begin before the storage of this buffer, which has the room. -/
  | beforeStorage (b : Buffer)

/-- Writes the literal of a text and a zero byte at the offset, which stays where it is. -/
def writeLiteral (bytes : List UInt8) (b : Buffer) : Except LiteralFault Buffer :=
  if bytes.any needsEscape then
    match b.write? (escapedLength bytes + 3) (quote :: escape bytes ++ [quote]) with
    | none => .error .noRoom
    | some b => .ok b
  else
    match b.reserve? (bytes.length + 3) with
    | none => .error .noRoom
    | some b =>
      if b.offset + 1 < 0 then .error (.beforeStorage b)
      else .ok (b.putAll b.offset (quote :: bytes ++ [quote, 0]))

end LinkedJson.Buffer
