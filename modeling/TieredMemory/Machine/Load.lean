import TieredMemory.Files.Access
import TieredMemory.Machine.Toml

/-!
# Loading a machine from its file
-/
set_option autoImplicit false

namespace TieredMemory

inductive LoadError where
  | missing (path : String)
  | unreadable (cause : FileError)
  | malformed
  deriving DecidableEq, Repr

namespace LoadError

def message : LoadError → String
  | .missing path => s!"system file not found: {path}"
  | .unreadable cause => s!"I/O error: {cause.message}"
  | .malformed => "TOML parse error"

/-- The message followed by that of the cause, if there is one. -/
def detailed : LoadError → String
  | .unreadable cause => s!"{LoadError.message (.unreadable cause)}: {cause.message}"
  | e => e.message

end LoadError

namespace Machine

def ofFile (path : String) (content : Except FileError String) : Logged LoadError Machine :=
  match content with
  | .error .missing => Logged.ofExcept (.error (.missing path))
  | .error cause => Logged.ofExcept (.error (.unreadable cause))
  | .ok text =>
    match ofToml? text with
    | none => Logged.ofExcept (.error .malformed)
    | some machine => Logged.noting (.ok machine) fun machine => .machineLoaded machine.name path

def load {m : Type → Type} [Monad m] (files : FileAccess m) (path : String) :
    m (Logged LoadError Machine) := do
  return ofFile path (← files.read path)

end Machine

end TieredMemory
