import TieredMemory.Json.Writer

/-!
# Forms of a report
-/
set_option autoImplicit false

namespace TieredMemory.Report

/-- For a reader or for a program. -/
inductive Format where
  | text
  | json
  deriving DecidableEq, Repr

def document (v : Json.Value) : String := v.pretty ++ "\n"

end TieredMemory.Report
