import TieredMemory.Files.Path
import TieredMemory.Machine.Load

/-!
# Machines of a project

A project keeps its machine files in a directory of its own. A machine is named by its file's name
without the ending that all of them have; the list is sorted by name, in the order of code points,
so it does not depend on the order of the directory.
-/
set_option autoImplicit false

namespace TieredMemory.Machine

def directoryName : String := "systems"

def fileEnding : String := ".system.toml"

/-- What is left of a list in front of a given end. -/
def withoutEnd? (ending : List Char) (cs : List Char) : Option (List Char) :=
  if ending.isSuffixOf cs then some (cs.take (cs.length - ending.length)) else none

/-- The name of the machine in a file, if the file's name is a text with the ending. -/
def nameOfFile? (fileName : ByteArray) : Option String :=
  (String.fromUTF8? fileName).bind fun s =>
    (withoutEnd? fileEnding.toList s.toList).map String.ofList

/-- A machine file by the name of its machine. -/
structure Discovered where
  name : String
  path : String
  deriving DecidableEq, Repr

/-- The same file, its path told from the directory that the path starts in. -/
def Discovered.within (d : Discovered) (directory : String) : Discovered :=
  { d with path := Path.join directory d.path }

def ofListing (directory : String) (fileNames : List ByteArray) : List Discovered :=
  let found := fileNames.filterMap fun fileName =>
    (nameOfFile? fileName).map fun name => ⟨name, Path.join directory (name ++ fileEnding)⟩
  found.mergeSort fun a b => decide (a.name ≤ b.name)

/-- The machines of a project; none if it has no directory for them. -/
def discover {m : Type → Type} [Monad m] (files : FileAccess m) (project : String) :
    m (Except LoadError (List Discovered)) := do
  let directory := Path.join project directoryName
  match ← files.list? directory with
  | .ok (some fileNames) => return .ok (ofListing directory fileNames)
  | .ok none => return .ok []
  | .error cause => return .error (.unreadable cause)

end TieredMemory.Machine
