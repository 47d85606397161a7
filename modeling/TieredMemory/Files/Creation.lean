import TieredMemory.Files.Access
import TieredMemory.Files.Path

/-!
# Making directories

A directory is made together with those above it that are missing. Each path is taken as it is
written: `a/../b` asks for `a`, although `b` does not stand in it.
-/
set_option autoImplicit false

namespace TieredMemory.FileAccess

variable {m : Type → Type} [Monad m] (files : FileAccess m)

def requireDirectory (path : String) : m (Except FileError Unit) := do
  match ← files.makeDirectory path with
  | .ok () => return .ok ()
  | .error e => if ← files.isDirectory path then return .ok () else return .error e

/-- Makes the directories of a part of `path`, which is given last segment first. The longest path
is tried first; what is above it is only made if it misses. -/
def createSegments (path : String) : List String → m (Except FileError Unit)
  | [] => return .ok ()
  | segment :: before => do
    if Path.isUnnamed segment before then createSegments path before
    else
      let directory := Path.ofReversed path (segment :: before)
      match ← files.requireDirectory directory with
      | .error .missing =>
        match ← createSegments path before with
        | .ok () => files.requireDirectory directory
        | .error e => return .error e
      | made => return made

def createDirectories (path : String) : m (Except FileError Unit) :=
  files.createSegments path (Path.segments path).reverse

end TieredMemory.FileAccess
