import LinkedJson.StringLiteral.Escape

/-!
# Reading string literals

A literal is looked through for its closing quote first, so a missing quote is found before any
fault inside. A body without a backslash is the string as it stands; otherwise its escapes are
replaced. Either way the bytes have to be well-formed UTF-8.
-/

namespace LinkedJson.StringLiteral

open Ascii

/-- How many bytes stand before the first quote that no backslash precedes, with `n` already
counted. -/
def bodyLength? (n : Nat) : List UInt8 → Option Nat
  | [] => none
  | b :: text =>
    if b = quote then some n
    else if b = backslash then
      match text with
      | [] => none
      | _ :: text => bodyLength? (n + 2) text
    else bodyLength? (n + 1) text

/-- Reads one item of a body, which is a byte that stands for itself or an escape: the bytes that it
stands for, and the rest of the body. From its digits on an escape has at most ten bytes. -/
def item (body : List UInt8) : Except ReadFault (List UInt8 × List UInt8) :=
  match body with
  | [] => .error .unterminatedString
  | b :: rest =>
    if b ≠ backslash then .ok ([b], rest)
    else match rest with
      | [] => .error .unterminatedString
      | c :: after =>
        match Escape.short? c with
        | some byte => .ok ([byte], after)
        | none =>
          if c ≠ 0x75 then .error (.unknownEscape c)
          else match Escape.codePoint (after.take 10).length after with
            | .error fault => .error fault
            | .ok (point, after) => .ok (String.utf8EncodeChar (Char.ofNat point), after)

/-- An item takes at least one byte. -/
theorem length_lt_of_item {body written rest : List UInt8} (h : item body = .ok (written, rest)) :
    rest.length < body.length := by
  unfold item at h
  split at h
  · simp at h
  · split at h
    · simp only [Except.ok.injEq, Prod.mk.injEq] at h
      simp [← h.2]
    · split at h
      · simp at h
      · split at h
        · simp only [Except.ok.injEq, Prod.mk.injEq] at h
          simp only [← h.2, List.length_cons]
          omega
        · split at h
          · simp at h
          · split at h
            · simp at h
            · rename_i hp
              simp only [Except.ok.injEq, Prod.mk.injEq] at h
              have := h.2 ▸ Escape.length_lt_of_codePoint hp
              simp only [List.length_cons]
              omega

/-- Replaces the escapes of a body. `out` holds, last byte first, what is already replaced. The
fault comes with the body from the offending backslash on. -/
def unescape (body : List UInt8) (out : List UInt8) : Scan (List UInt8) :=
  if body.isEmpty then .ok out.reverse
  else match h : item body with
    | .error fault => .error (fault, body)
    | .ok (written, rest) =>
      have := length_lt_of_item h
      unescape rest (written.reverse ++ out)
  termination_by body.length

/-- The bytes that a body stands for. -/
def bodyBytes (body : List UInt8) : Scan (List UInt8) :=
  if body.contains backslash then unescape body [] else .ok body

/-- Reads the string literal at the front of a text: the string and the text behind it. -/
def read (text : List UInt8) : Scan (String × List UInt8) :=
  match text with
  | [] => .error (.expectedString, text)
  | b :: inner =>
    if b ≠ quote then .error (.expectedString, text)
    else match bodyLength? 0 inner with
      | none => .error (.unterminatedString, [])
      | some n =>
        match bodyBytes (inner.take n) with
        | .error (fault, rest) => .error (fault, rest ++ inner.drop n)
        | .ok bytes =>
          match Utf8.decode? bytes with
          | none => .error (.notUtf8, text)
          | some s => .ok (s, inner.drop (n + 1))

/-- Reads the string literal at an offset of a text. -/
def readAt (bytes : List UInt8) (start : Int) : Except (ReadFault × Int) (String × Int) :=
  Scan.runAt read bytes start

end LinkedJson.StringLiteral
