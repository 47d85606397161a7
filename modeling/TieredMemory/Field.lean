import TieredMemory.Bitfield
import TieredMemory.Tier

/-!
# Named fields of an address word

Every bit range with a meaning has a name, which is also its macro name in generated headers. The
encoding table lists, for each tier and mode, the fields an address of that kind is made of.
-/
set_option autoImplicit false

namespace TieredMemory

inductive Field where
  | isAbsolute
  | absoluteIsDram
  | absoluteIsL2sp
  | absoluteIsCtrl
  | absolutePxn
  | absolutePod
  | absoluteCore
  | absoluteDramOffset
  | absoluteL2spOffset
  | absoluteL1spOffset
  | absoluteCtrlOffset
  | relativeIsDram
  | relativeIsL2sp
  | relativeL1spOffset
  | relativeL2spOffset
  | relativeDramOffset
  deriving DecidableEq, Repr

namespace Field

/-- All fields in header order. -/
def all : List Field :=
  [.isAbsolute, .absoluteIsDram, .absoluteIsL2sp, .absoluteIsCtrl, .absolutePxn, .absolutePod,
    .absoluteCore, .absoluteDramOffset, .absoluteL2spOffset, .absoluteL1spOffset,
    .absoluteCtrlOffset, .relativeIsDram, .relativeIsL2sp, .relativeL1spOffset,
    .relativeL2spOffset, .relativeDramOffset]

def name : Field → String
  | .isAbsolute => "IS_ABSOLUTE"
  | .absoluteIsDram => "ABSOLUTE_IS_DRAM"
  | .absoluteIsL2sp => "ABSOLUTE_IS_L2SP"
  | .absoluteIsCtrl => "ABSOLUTE_IS_CTRL"
  | .absolutePxn => "ABSOLUTE_PXN"
  | .absolutePod => "ABSOLUTE_POD"
  | .absoluteCore => "ABSOLUTE_CORE"
  | .absoluteDramOffset => "ABSOLUTE_DRAM_OFFSET"
  | .absoluteL2spOffset => "ABSOLUTE_L2SP_OFFSET"
  | .absoluteL1spOffset => "ABSOLUTE_L1SP_OFFSET"
  | .absoluteCtrlOffset => "ABSOLUTE_CTRL_OFFSET"
  | .relativeIsDram => "RELATIVE_IS_DRAM"
  | .relativeIsL2sp => "RELATIVE_IS_L2SP"
  | .relativeL1spOffset => "RELATIVE_L1SP_OFFSET"
  | .relativeL2spOffset => "RELATIVE_L2SP_OFFSET"
  | .relativeDramOffset => "RELATIVE_DRAM_OFFSET"

def isAbsoluteOnly : Field → Bool
  | .absoluteIsDram | .absoluteIsL2sp | .absoluteIsCtrl | .absolutePxn | .absolutePod
  | .absoluteCore | .absoluteDramOffset | .absoluteL2spOffset | .absoluteL1spOffset
  | .absoluteCtrlOffset => true
  | _ => false

def isRelativeOnly (f : Field) : Bool := f != .isAbsolute && !f.isAbsoluteOnly

def ofName? (s : String) : Option Field := all.find? (·.name == s)

def ofLevel : Level → Field
  | .pxn => .absolutePxn
  | .pod => .absolutePod
  | .core => .absoluteCore

/-- The offset field of addresses of a tier and mode; control windows have no relative address. -/
def offset? : Mode → Tier → Option Field
  | .absolute, .dram => some .absoluteDramOffset
  | .absolute, .l2sp => some .absoluteL2spOffset
  | .absolute, .l1sp => some .absoluteL1spOffset
  | .absolute, .ctrl => some .absoluteCtrlOffset
  | .relative, .dram => some .relativeDramOffset
  | .relative, .l2sp => some .relativeL2spOffset
  | .relative, .l1sp => some .relativeL1spOffset
  | .relative, .ctrl => none

/-- The flags tested to reach a tier in a mode, then its coordinates, then its offset. -/
def encoding? : Mode → Tier → Option (List Field)
  | .absolute, .dram =>
    some [.isAbsolute, .absoluteIsDram, .absolutePxn, .absoluteDramOffset]
  | .absolute, .l2sp =>
    some [.isAbsolute, .absoluteIsDram, .absoluteIsL2sp, .absolutePxn, .absolutePod,
      .absoluteL2spOffset]
  | .absolute, .l1sp =>
    some [.isAbsolute, .absoluteIsDram, .absoluteIsL2sp, .absolutePxn, .absolutePod, .absoluteCore,
      .absoluteIsCtrl, .absoluteL1spOffset]
  | .absolute, .ctrl =>
    some [.isAbsolute, .absoluteIsDram, .absoluteIsL2sp, .absolutePxn, .absolutePod, .absoluteCore,
      .absoluteIsCtrl, .absoluteCtrlOffset]
  | .relative, .dram => some [.isAbsolute, .relativeIsDram, .relativeDramOffset]
  | .relative, .l2sp =>
    some [.isAbsolute, .relativeIsDram, .relativeIsL2sp, .relativeL2spOffset]
  | .relative, .l1sp =>
    some [.isAbsolute, .relativeIsDram, .relativeIsL2sp, .relativeL1spOffset]
  | .relative, .ctrl => none

end Field

end TieredMemory
