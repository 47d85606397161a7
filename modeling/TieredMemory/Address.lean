import TieredMemory.Address.Error

/-!
# Structured addresses

What an address word means: a tier, a mode, a byte offset, and for absolute addresses the owner's
coordinates. An address is plain data; `WellFormed` says which combinations have a meaning.
-/
set_option autoImplicit false

namespace TieredMemory

structure Address where
  tier : Tier
  mode : Mode
  /-- The byte within the owner's memory. -/
  offset : UInt64
  pxn : Option UInt64
  pod : Option UInt64
  core : Option UInt64
  /-- The core a relative address was read for. -/
  issuer : Option CoreId
  deriving DecidableEq

namespace Address

def absoluteL1sp (pxn pod core offset : UInt64) : Address :=
  ⟨.l1sp, .absolute, offset, some pxn, some pod, some core, none⟩

def absoluteCtrl (pxn pod core offset : UInt64) : Address :=
  ⟨.ctrl, .absolute, offset, some pxn, some pod, some core, none⟩

def absoluteL2sp (pxn pod offset : UInt64) : Address :=
  ⟨.l2sp, .absolute, offset, some pxn, some pod, none, none⟩

def absoluteDram (pxn offset : UInt64) : Address :=
  ⟨.dram, .absolute, offset, some pxn, none, none, none⟩

private def relativeTo (tier : Tier) (offset : UInt64) : Address :=
  ⟨tier, .relative, offset, none, none, none, none⟩

def relativeL1sp (offset : UInt64) : Address := relativeTo .l1sp offset

def relativeL2sp (offset : UInt64) : Address := relativeTo .l2sp offset

def relativeDram (offset : UInt64) : Address := relativeTo .dram offset

/-- The byte of the tier that `owner` has or shares; levels the tier does not carry are dropped. -/
def absoluteFor (tier : Tier) (owner : CoreId) (offset : UInt64) : Address :=
  match tier with
  | .l1sp => absoluteL1sp owner.pxn owner.pod owner.core offset
  | .ctrl => absoluteCtrl owner.pxn owner.pod owner.core offset
  | .l2sp => absoluteL2sp owner.pxn owner.pod offset
  | .dram => absoluteDram owner.pxn offset

def isAbsolute (a : Address) : Bool := a.mode == .absolute

def isRelative (a : Address) : Bool := a.mode == .relative

/-- Notes the core that a relative address is read for; an absolute address stays. -/
def withIssuer (a : Address) (issuer : CoreId) : Address :=
  if a.isRelative then { a with issuer := some issuer } else a

def coordinate (a : Address) : Level → Option UInt64
  | .pxn => a.pxn
  | .pod => a.pod
  | .core => a.core

/-- An absolute address has exactly its tier's coordinates; a relative one has none, and its tier
has a relative form. -/
def HasCoordinates (a : Address) : Prop :=
  match a.mode with
  | .absolute => ∀ level, (a.coordinate level).isSome = a.tier.carries level
  | .relative => a.tier.allowsRelative = true ∧ ∀ level, a.coordinate level = none

/-- The combinations that have a meaning; only a relative address is read for a core. -/
structure WellFormed (a : Address) : Prop where
  coordinates : a.HasCoordinates
  issuer : a.issuer.isSome = true → a.mode = .relative

def coordinateText (label : String) : Option UInt64 → String
  | none => ""
  | some value => label ++ "=" ++ Word.decimal value ++ ","

/-- Mode, tier, the coordinates there are, and the offset, in braces. -/
def text (a : Address) : String :=
  "\x7b" ++ a.mode.name ++ "," ++ a.tier.name ++ "," ++ coordinateText "PXN" a.pxn ++
    coordinateText "POD" a.pod ++ coordinateText "CORE" a.core ++ Word.hexText a.offset ++ "\x7d"

end Address

end TieredMemory
