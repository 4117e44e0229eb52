import LinkedJson.Fault

/-!
# Scanning literals

A reader of literals takes the front off a text. It works on the unread bytes alone, and places are
told by what is left to read. `Scan.runAt` runs such a reader at an offset and tells places by their
offsets.
-/

namespace LinkedJson

/-- The outcome of a reader of literals; a fault comes with the text from the offending byte on. -/
abbrev Scan :=
  Except (ReadFault × List UInt8)

/-- Runs a reader on the content of a text from an offset on: the value and the offset behind it, or
the fault and the offset of the offending byte. -/
def Scan.runAt {α : Type} (read : List UInt8 → Scan (α × List UInt8)) (bytes : List UInt8)
    (start : Int) : Except (ReadFault × Int) (α × Int) :=
  let text := content (textFrom bytes start)
  match read text with
  | .ok (a, rest) => .ok (a, start + (text.length - rest.length : Nat))
  | .error (fault, rest) => .error (fault, start + (text.length - rest.length : Nat))

end LinkedJson
