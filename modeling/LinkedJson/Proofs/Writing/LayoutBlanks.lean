import LinkedJson.Document.Layout
import LinkedJson.Proofs.Grammar.Derivation

/-!
# Blanks of the layouts

What a layout puts between tokens is a comma, a colon or a brace with blanks before or behind it.
-/

namespace LinkedJson.Grammar

open Ascii

def Blanks.append (v w : Blanks) : Blanks :=
  ⟨v.bytes ++ w.bytes, fun b hb => (List.mem_append.1 hb).elim (v.isBlank b) (w.isBlank b)⟩

/-- A line feed, tab or space that only the pretty layout has. -/
def Blanks.ofPretty (pretty : Bool) (b : UInt8) (h : Ascii.isBlank b = true) : Blanks :=
  ⟨if pretty then [b] else [], by cases pretty <;> simp [h]⟩

def Blanks.space (pretty : Bool) : Blanks :=
  .ofPretty pretty 0x20 (by decide)

def Blanks.tab (pretty : Bool) : Blanks :=
  .ofPretty pretty 0x09 (by decide)

def Blanks.lineEnd (pretty : Bool) : Blanks :=
  .ofPretty pretty lineFeed (by decide)

def Blanks.indent (pretty : Bool) (depth : Nat) : Blanks :=
  ⟨Layout.memberIndent pretty depth, by
    unfold Layout.memberIndent
    split
    · intro b hb
      rw [List.eq_of_mem_replicate hb]
      decide
    · exact fun _ h => nomatch h⟩

theorem itemSeparator_eq (pretty : Bool) :
    Layout.itemSeparator pretty = comma :: (Blanks.space pretty).bytes := by
  cases pretty <;> decide

theorem objectStart_eq (pretty : Bool) :
    Layout.objectStart pretty = openBrace :: (Blanks.lineEnd pretty).bytes := by
  cases pretty <;> decide

theorem nameSeparator_eq (pretty : Bool) :
    Layout.nameSeparator pretty = colon :: (Blanks.tab pretty).bytes := by
  cases pretty <;> decide

theorem memberEnd_eq (pretty isLast : Bool) :
    Layout.memberEnd pretty isLast =
      (if isLast then [] else [comma]) ++ (Blanks.lineEnd pretty).bytes := by
  cases pretty <;> cases isLast <;> decide

theorem objectEnd_eq (pretty : Bool) (depth : Nat) :
    Layout.objectEnd pretty depth = (Blanks.indent pretty depth).bytes ++ [closeBrace] :=
  rfl

end LinkedJson.Grammar
