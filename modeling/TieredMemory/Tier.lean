import TieredMemory.Topology

/-!
# Memory tiers and addressing modes

Each tier belongs to one level of the machine: an L1 scratchpad and a control window to a core, an
L2 scratchpad to a pod, DRAM to a PXN. The owner is what an absolute address names by coordinates.
-/
set_option autoImplicit false

namespace TieredMemory

/-- Letters `A` to `Z` in lower case; all other characters stay. -/
def lowerAscii (s : String) : String := String.ofList (s.toList.map Char.toLower)

inductive Tier where
  | l1sp
  | l2sp
  | dram
  | ctrl
  deriving DecidableEq, Repr

namespace Tier

/-- All tiers, innermost first. -/
def all : List Tier := [.l1sp, .l2sp, .dram, .ctrl]

/-- The name in renderings and generated code. -/
def name : Tier → String
  | .l1sp => "L1SP"
  | .l2sp => "L2SP"
  | .dram => "DRAM"
  | .ctrl => "CTRL"

/-- The name in data files and labels. -/
def key : Tier → String
  | .l1sp => "l1sp"
  | .l2sp => "l2sp"
  | .dram => "dram"
  | .ctrl => "ctrl"

/-- Whether an absolute address of the tier has a coordinate on the level. -/
def carries : Tier → Level → Bool
  | _, .pxn => true
  | t, .pod => t != .dram
  | t, .core => t == .l1sp || t == .ctrl

/-- Control windows are reached by absolute addresses only. -/
def allowsRelative (t : Tier) : Bool := t != .ctrl

/-- The tier of that name, in any mix of cases. -/
def ofName? (s : String) : Option Tier :=
  match lowerAscii s with
  | "l1sp" => some .l1sp
  | "l2sp" => some .l2sp
  | "dram" => some .dram
  | "ctrl" => some .ctrl
  | _ => none

end Tier

/-- Whether an address names its owner or means the issuing core's own memory. -/
inductive Mode where
  | absolute
  | relative
  deriving DecidableEq, Repr

namespace Mode

def all : List Mode := [.absolute, .relative]

def name : Mode → String
  | .absolute => "ABSOLUTE"
  | .relative => "RELATIVE"

def key : Mode → String
  | .absolute => "absolute"
  | .relative => "relative"

/-- The mode of that name or short name, in any mix of cases. -/
def ofName? (s : String) : Option Mode :=
  match lowerAscii s with
  | "absolute" | "abs" => some .absolute
  | "relative" | "rel" => some .relative
  | _ => none

end Mode

end TieredMemory
