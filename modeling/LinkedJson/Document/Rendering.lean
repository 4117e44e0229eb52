import LinkedJson.Document.Layout
import LinkedJson.Number.Text
import LinkedJson.StringLiteral.Writing
import LinkedJson.Tree.Basic

/-!
# The text of a tree

`JsonTree.render` is the whole text of a tree as bytes, by recursion on the tree, without any bound
on nesting or room. It is what a writer with enough of both writes.
-/

namespace LinkedJson

/-- The literal of a string. -/
def StringLiteral.literal (s : WideString) : List UInt8 :=
  Ascii.quote :: escape s.encode ++ [Ascii.quote]

/-- The text of a value without parts. -/
def Scalar.render : Scalar → List UInt8
  | null => Utf8.encode "null"
  | bool true => Utf8.encode "true"
  | bool false => Utf8.encode "false"
  | number n => Utf8.encode n.text
  | string s => StringLiteral.literal s
  | raw text => text.encode

namespace JsonTree

mutual

/-- The text of a tree that stands inside `depth` containers. -/
def render (pretty : Bool) (depth : Nat) : JsonTree → List UInt8
  | scalar _ v => v.render
  | array _ [] => Utf8.encode "[]"
  | array _ (t :: ts) =>
    Utf8.encode "[" ++ renderItems pretty (depth + 1) (t :: ts) ++ Utf8.encode "]"
  | object _ [] => Utf8.encode "\x7b\x7d"
  | object _ (t :: ts) =>
    Layout.objectStart pretty ++ renderMembers pretty (depth + 1) (t :: ts) ++
      Layout.objectEnd pretty depth
  | reference _ target => target.render pretty depth

/-- The items of an array with what stands between them. -/
def renderItems (pretty : Bool) (depth : Nat) : List JsonTree → List UInt8
  | [] => []
  | t :: ts =>
    t.render pretty depth ++ (if ts.isEmpty then [] else Layout.itemSeparator pretty) ++
      renderItems pretty depth ts

/-- The members of an object with what stands around them. -/
def renderMembers (pretty : Bool) (depth : Nat) : List JsonTree → List UInt8
  | [] => []
  | t :: ts =>
    Layout.memberIndent pretty depth ++ StringLiteral.literal (t.label.key.getD "") ++
      Layout.nameSeparator pretty ++ t.render pretty depth ++ Layout.memberEnd pretty ts.isEmpty ++
      renderMembers pretty depth ts

end

end JsonTree

end LinkedJson
