import TieredMemory.Address.Builder
import TieredMemory.Report.Format

/-!
# Commands

What a user can ask for, and about which machine.
-/
set_option autoImplicit false

namespace TieredMemory.CommandLine

/-- Which machine a command is about: one from a file or a built-in one, with counts of its own. -/
structure Selection where
  config : Option String
  preset : Option String
  pxns : Option UInt64
  pods : Option UInt64
  cores : Option UInt64
  deriving DecidableEq

/-- What a command does with the selected machine. -/
inductive Task where
  | header (output : Option String)
  | linkerScript (output : Option String)
  | fields (format : Report.Format)
  | ranges (format : Report.Format)
  | decode (raw : UInt64) (issuer : CoreId)
  | encode (description : AddressBuilder)
  | validate
  deriving DecidableEq

inductive Command where
  | onMachine (task : Task)
  | template (name : String)
  | presets
  deriving DecidableEq

structure Invocation where
  selection : Selection
  /-- How often more detail of the log is asked for. -/
  verbosity : Nat
  command : Command
  deriving DecidableEq

end TieredMemory.CommandLine
