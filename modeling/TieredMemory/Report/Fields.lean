import TieredMemory.AddressMap
import TieredMemory.Report.Format
import TieredMemory.Text.Pad

/-!
# Where the fields of an address lie

A row per field. In the table for readers a field without bits has no bounds.
-/
set_option autoImplicit false

namespace TieredMemory.Report

def columns (name hi lo bits : String) : String :=
  "  " ++ Text.padRight 24 name ++ " " ++ Text.padLeft 3 hi ++ " " ++ Text.padLeft 3 lo ++ " " ++
    Text.padLeft 5 bits ++ "\n"

def fieldRow (f : Field) (b : Bitfield) : String :=
  if b.isEmpty then columns f.name "-" "-" "0"
  else columns f.name (Nat.repr b.hi) (Nat.repr b.lo) (Nat.repr b.bits)

def fieldTable (m : AddressMap) : String :=
  s!"Address fields for {m.topology.text}:\n\n" ++ columns "FIELD" "HI" "LO" "BITS" ++
    String.join (m.layout.fields.map fun (f, b) => fieldRow f b)

def fieldRecord (f : Field) (b : Bitfield) : Json.Value :=
  .record [("name", .text f.name), ("hi", .nat b.hi), ("lo", .nat b.lo), ("bits", .nat b.bits)]

/-- All fields in header order. -/
def fields (m : AddressMap) : Format → String
  | .text => fieldTable m
  | .json => document (.array (m.layout.fields.map fun (f, b) => fieldRecord f b))

end TieredMemory.Report
