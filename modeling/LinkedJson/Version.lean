/-!
# The version of the library
-/

namespace LinkedJson

/-- The version, as major, minor and patch number. -/
def version : String :=
  "1.0.0"

end LinkedJson
