import LinkedJson.Text.Utf8

/-!
# The two layouts

The pretty layout puts each member of an object on a line of its own, indented by one tab for each
level and with a tab after the colon; arrays stay on one line with a blank after each comma. The
compact layout has no blanks at all.
-/

namespace LinkedJson.Layout

/-- The tabs in front of a line at a depth. -/
def indent (depth : Nat) : List UInt8 :=
  List.replicate depth 0x09

/-- What stands between the items of an array. -/
def itemSeparator (pretty : Bool) : List UInt8 :=
  if pretty then Utf8.encode ", " else Utf8.encode ","

/-- What an object begins with. -/
def objectStart (pretty : Bool) : List UInt8 :=
  if pretty then Utf8.encode "\x7b\n" else Utf8.encode "\x7b"

/-- What stands in front of the name of a member. -/
def memberIndent (pretty : Bool) (depth : Nat) : List UInt8 :=
  if pretty then indent depth else []

/-- What stands between a name and its value. -/
def nameSeparator (pretty : Bool) : List UInt8 :=
  if pretty then Utf8.encode ":\t" else Utf8.encode ":"

/-- What follows a member. -/
def memberEnd (pretty isLast : Bool) : List UInt8 :=
  (if isLast then [] else Utf8.encode ",") ++ if pretty then Utf8.encode "\n" else []

/-- What an object at a depth ends with. -/
def objectEnd (pretty : Bool) (depth : Nat) : List UInt8 :=
  memberIndent pretty depth ++ Utf8.encode "\x7d"

end LinkedJson.Layout
