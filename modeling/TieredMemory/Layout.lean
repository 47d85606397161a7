import TieredMemory.Address.Error

/-!
# Where each field lies

The flags lie at fixed places, at the top and at bit 29 and 30. The coordinate fields follow each
other downward from bit 60, as wide as the topology needs them, and the offset of a tier with fewer
coordinates grows up into the bits that the missing ones leave.

    absolute  63 | 62      | 61      | 60 .. pxn | pod | core .. 30 | 29      | 28 .. 0
              1  | is DRAM | is L2SP | coordinates, packed downward | is CTRL | offset
    relative  63 | 62 .. 31 | 30      | 29      | 28 .. 0
              0  | unused   | is DRAM | is L2SP | offset
-/
set_option autoImplicit false

namespace TieredMemory

/-- The fields whose place depends on the topology. -/
structure Layout where
  pxn : Bitfield
  pod : Bitfield
  core : Bitfield
  dramOffset : Bitfield
  l2spOffset : Bitfield
  deriving DecidableEq

namespace Layout

/-- The flag right above the coordinates of an absolute address. -/
abbrev isL2spFlag : Bitfield := .span 61 61

/-- The flag right below the coordinates of an absolute address. -/
abbrev isCtrlFlag : Bitfield := .span 29 29

def field (l : Layout) : Field → Bitfield
  | .isAbsolute => .span 63 63
  | .absoluteIsDram => .span 62 62
  | .absoluteIsL2sp => isL2spFlag
  | .absoluteIsCtrl => isCtrlFlag
  | .absolutePxn => l.pxn
  | .absolutePod => l.pod
  | .absoluteCore => l.core
  | .absoluteDramOffset => l.dramOffset
  | .absoluteL2spOffset => l.l2spOffset
  | .absoluteL1spOffset | .absoluteCtrlOffset => .span 28 0
  | .relativeIsDram => .span 30 30
  | .relativeIsL2sp => .span 29 29
  | .relativeL1spOffset => .span 28 0
  | .relativeL2spOffset => .span 28 0
  | .relativeDramOffset => .span 29 0

def fields (l : Layout) : List (Field × Bitfield) := Field.all.map fun f => (f, l.field f)

def encoding (tier : Tier) (mode : Mode) : Except AddressError (List Field) :=
  match Field.encoding? mode tier with
  | some fields => .ok fields
  | none => .error (.cannotBeRelative tier)

def offsetField (l : Layout) (tier : Tier) (mode : Mode) : Except AddressError Bitfield :=
  match Field.offset? mode tier with
  | some f => .ok (l.field f)
  | none => .error (.cannotBeRelative tier)

/-- The number of bytes that the offset of a tier and mode can name. -/
def windowSize (l : Layout) (tier : Tier) (mode : Mode) : Except AddressError UInt64 :=
  (l.offsetField tier mode).map fun f => Word.addSaturating f.mask 1

end Layout

end TieredMemory
