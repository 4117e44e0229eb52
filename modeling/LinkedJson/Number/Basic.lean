import LinkedJson.Double.Conversion

/-!
# Numbers of a tree

A number node holds a double and beside it an integer. The integer starts out as the 32-bit view of
the double, and a caller may set it to something else.
-/

namespace LinkedJson

/-- A double and the integer kept beside it. -/
structure Number where
  value : Double
  integer : Int
  deriving DecidableEq

namespace Number

/-- A number whose integer is the 32-bit view of its double. -/
def ofDouble (d : Double) : Number :=
  ⟨d, d.toInt32⟩

/-- The number of a double truncated to 32 bits. -/
def ofTruncated (d : Double) : Number :=
  ofDouble d.truncated

/-- The number of a double rounded to single precision. -/
def ofSingle (d : Double) : Number :=
  ofDouble d.toSingle

end Number

end LinkedJson
