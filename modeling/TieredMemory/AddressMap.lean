import TieredMemory.Address.Builder
import TieredMemory.Layout.Plan

/-!
# The address map of a machine

`encode` packs a structured address into a word and `decode` reads any word back. Words with bit 63
set name their owner; all others are read for the core that issues them.
-/
set_option autoImplicit false

namespace TieredMemory

/-- A topology with the layout planned for it. -/
structure AddressMap where
  topology : Topology
  layout : Layout
  planned : Layout.plan topology = .ok layout

namespace AddressMap

def plan (t : Topology) : Except AddressError AddressMap :=
  match h : Layout.plan t with
  | .ok layout => .ok ⟨t, layout, h⟩
  | .error e => .error e

variable (m : AddressMap)

def put (raw : UInt64) (field : Field) (value : UInt64) : Except AddressError UInt64 :=
  match (m.layout.field field).set? raw value with
  | some word => .ok word
  | none => .error (.fieldOverflow field value (m.layout.field field).bits)

def putAll : UInt64 → List (Field × UInt64) → Except AddressError UInt64
  | raw, [] => .ok raw
  | raw, (field, value) :: rest => do
    let word ← m.put raw field value
    putAll word rest

/-- What the fields of a description hold: flags, coordinates, then the offset. A coordinate that
is not given counts as 0; one that the tier does not carry is not written. -/
def assignments (a : Address) : Except AddressError (List (Field × UInt64)) :=
  let pxn := a.pxn.getD 0
  let pod := a.pod.getD 0
  let core := a.core.getD 0
  match a.mode, a.tier with
  | .absolute, .dram =>
    .ok [(.isAbsolute, 1), (.absoluteIsDram, 1), (.absolutePxn, pxn),
      (.absoluteDramOffset, a.offset)]
  | .absolute, .l2sp =>
    .ok [(.isAbsolute, 1), (.absoluteIsL2sp, 1), (.absolutePxn, pxn), (.absolutePod, pod),
      (.absoluteL2spOffset, a.offset)]
  | .absolute, .l1sp =>
    .ok [(.isAbsolute, 1), (.absolutePxn, pxn), (.absolutePod, pod), (.absoluteCore, core),
      (.absoluteL1spOffset, a.offset)]
  | .absolute, .ctrl =>
    .ok [(.isAbsolute, 1), (.absoluteIsCtrl, 1), (.absolutePxn, pxn), (.absolutePod, pod),
      (.absoluteCore, core), (.absoluteCtrlOffset, a.offset)]
  | .relative, .dram => .ok [(.relativeIsDram, 1), (.relativeDramOffset, a.offset)]
  | .relative, .l2sp => .ok [(.relativeIsL2sp, 1), (.relativeL2spOffset, a.offset)]
  | .relative, .l1sp => .ok [(.relativeL1spOffset, a.offset)]
  | .relative, .ctrl => .error (.cannotBeRelative .ctrl)

/-- The first level whose coordinate is given and not below the machine's count. -/
def firstOutside? (a : Address) : List Level → Option (Level × UInt64)
  | [] => none
  | level :: rest =>
    match a.coordinate level with
    | some value => if m.topology.count level ≤ value then some (level, value)
      else firstOutside? a rest
    | none => firstOutside? a rest

def checkCoordinates (a : Address) : Except AddressError Unit :=
  match m.firstOutside? a Level.all with
  | some (level, value) => .error (.coordinateOutOfRange level value (m.topology.count level))
  | none => .ok ()

def encode (a : Address) : Except AddressError UInt64 := do
  m.checkCoordinates a
  let values ← assignments a
  m.putAll 0 values

def get (raw : UInt64) (field : Field) : UInt64 := (m.layout.field field).get raw

def decodeAbsolute (raw : UInt64) : Address :=
  let pxn := m.get raw .absolutePxn
  let pod := m.get raw .absolutePod
  let core := m.get raw .absoluteCore
  if m.get raw .absoluteIsDram ≠ 0 then
    .absoluteDram pxn (m.get raw .absoluteDramOffset)
  else if m.get raw .absoluteIsL2sp ≠ 0 then
    .absoluteL2sp pxn pod (m.get raw .absoluteL2spOffset)
  else if m.get raw .absoluteIsCtrl ≠ 0 then
    .absoluteCtrl pxn pod core (m.get raw .absoluteCtrlOffset)
  else .absoluteL1sp pxn pod core (m.get raw .absoluteL1spOffset)

def decodeRelative (raw : UInt64) : Address :=
  if m.get raw .relativeIsDram ≠ 0 then .relativeDram (m.get raw .relativeDramOffset)
  else if m.get raw .relativeIsL2sp ≠ 0 then .relativeL2sp (m.get raw .relativeL2spOffset)
  else .relativeL1sp (m.get raw .relativeL1spOffset)

/-- What a word means; a relative one is read for `issuer`. -/
def decode (raw : UInt64) (issuer : CoreId) : Address :=
  if m.get raw .isAbsolute ≠ 0 then m.decodeAbsolute raw
  else (m.decodeRelative raw).withIssuer issuer

/-- The absolute word for the byte that `raw` means to `issuer`. -/
def toAbsolute (raw : UInt64) (issuer : CoreId) : Except AddressError UInt64 :=
  let a := m.decode raw issuer
  if a.isAbsolute then .ok raw else m.encode (.absoluteFor a.tier issuer a.offset)

def base (tier : Tier) (owner : CoreId) : Except AddressError UInt64 :=
  m.encode (.absoluteFor tier owner 0)

def encodeBuilder (b : AddressBuilder) : Except AddressError UInt64 := do
  let a ← b.build
  m.encode a

end AddressMap

end TieredMemory
