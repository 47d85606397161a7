import TieredMemory.Word

/-!
# The shape of the machine

A machine has PXNs, each PXN has pods, each pod has cores.
-/
set_option autoImplicit false

namespace TieredMemory

/-- The three levels of the machine, outermost first. -/
inductive Level where
  | pxn
  | pod
  | core
  deriving DecidableEq, Repr

def Level.all : List Level := [.pxn, .pod, .core]

def Level.name : Level → String
  | .pxn => "pxn"
  | .pod => "pod"
  | .core => "core"

/-- How many instances each level has within the one above it. -/
structure Topology where
  pxns : UInt64
  pods : UInt64
  cores : UInt64
  deriving DecidableEq

namespace Topology

def single : Topology := ⟨1, 1, 1⟩

def count (t : Topology) : Level → UInt64
  | .pxn => t.pxns
  | .pod => t.pods
  | .core => t.cores

/-- The cores of the whole machine, if their number is a word. -/
def totalCores? (t : Topology) : Option UInt64 :=
  match Word.mul t.pxns t.pods with
  | .error _ => none
  | .ok pods => (Word.mul pods t.cores).toOption

/-- Counts as log lines name them: the outermost level first. -/
def text (t : Topology) : String :=
  s!"{t.pxns} pxns x {t.pods} pods x {t.cores} cores"

end Topology

structure CoreId where
  pxn : UInt64
  pod : UInt64
  core : UInt64
  deriving DecidableEq

namespace CoreId

def first : CoreId := ⟨0, 0, 0⟩

def text (c : CoreId) : String := s!"pxn{c.pxn}.pod{c.pod}.core{c.core}"

end CoreId

end TieredMemory
