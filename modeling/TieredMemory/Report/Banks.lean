import TieredMemory.Json.Codec
import TieredMemory.Report.Format

/-!
# The banks of a machine

A row per bank.
-/
set_option autoImplicit false

namespace TieredMemory.Report

def bankTable (machineName : String) (banks : List Bank) : String :=
  s!"Memory banks of '{machineName}' ({banks.length} total):\n\n" ++
    String.join (banks.map fun b => "  " ++ b.text ++ "\n")

def banks (machineName : String) (banks : List Bank) : Format → String
  | .text => bankTable machineName banks
  | .json => document (.array (banks.map Bank.toJson))

end TieredMemory.Report
