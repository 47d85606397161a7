/-!
# TOML values

Of a floating-point number, a date or a time only the kind is kept: no field of a machine
description takes one, so they matter only for where a text is well-formed.
-/
set_option autoImplicit false

namespace TieredMemory.Toml

inductive Value where
  | string (text : String)
  | integer (value : Int)
  | float
  | boolean (value : Bool)
  | moment
  | array (items : List Value)
  | table (entries : List (String × Value))

/-- Integers lie from minus this bound up to but not including it. -/
def integerBound : Nat := 0x8000000000000000

/-- How many arrays and inline tables may stand within each other, and one more than a key may have
parts. -/
def nestingLimit : Nat := 80

end TieredMemory.Toml
