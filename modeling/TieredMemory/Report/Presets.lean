import TieredMemory.Machine.Discovery
import TieredMemory.Machine.Presets
import TieredMemory.Text.Pad

/-!
# The machines there are to choose from

The built-in ones, then those of the project if it has any.
-/
set_option autoImplicit false

namespace TieredMemory.Report

def machineLine (name rest : String) : String :=
  "  " ++ Text.padRight 15 name ++ " " ++ rest ++ "\n"

def listing (heading : String) (lines : List String) : String :=
  heading ++ "\n\n" ++ String.join lines

/-- What is shown before the directory of the project is looked at. -/
def builtins : String :=
  listing "Built-in presets:" (Machine.presets.map fun p => machineLine p.name p.description)

def machines (project : List Machine.Discovered) : String :=
  let found := listing "Project systems:" (project.map fun d => machineLine d.name d.path)
  builtins ++ (if project.isEmpty then "" else "\n" ++ found) ++
    "\nUse 'pandomap --preset <name> validate' or 'pandomap --config <file> validate' to check one.\n"

end TieredMemory.Report
