import TieredMemory.Address

/-!
# Building an address step by step

Setters come in any order and the last one of a kind counts; `build` checks the combination.
-/
set_option autoImplicit false

namespace TieredMemory

/-- An address description before it is checked. -/
structure AddressBuilder where
  tier : Option Tier
  mode : Mode
  offset : UInt64
  pxn : Option UInt64
  pod : Option UInt64
  core : Option UInt64
  deriving DecidableEq

namespace AddressBuilder

/-- No tier, relative, offset 0, no coordinates. -/
def empty : AddressBuilder := ⟨none, .relative, 0, none, none, none⟩

/-- One setter call. -/
inductive Step where
  | tier (tier : Tier)
  | mode (mode : Mode)
  | offset (offset : UInt64)
  | coordinate (level : Level) (value : UInt64)
  deriving DecidableEq

def apply (b : AddressBuilder) : Step → AddressBuilder
  | .tier tier => { b with tier := some tier }
  | .mode mode => { b with mode := mode }
  | .offset offset => { b with offset := offset }
  | .coordinate .pxn value => { b with pxn := some value }
  | .coordinate .pod value => { b with pod := some value }
  | .coordinate .core value => { b with core := some value }

def ofSteps (steps : List Step) : AddressBuilder := steps.foldl apply empty

/-- A description from its parts; a coordinate that is not given is not set. -/
def ofParts (tier : Tier) (mode : Mode) (offset : UInt64) (pxn pod core : Option UInt64) :
    AddressBuilder :=
  ofSteps ([.tier tier, .mode mode, .offset offset] ++ pxn.toList.map (.coordinate .pxn) ++
    pod.toList.map (.coordinate .pod) ++ core.toList.map (.coordinate .core))

def coordinate (b : AddressBuilder) : Level → Option UInt64
  | .pxn => b.pxn
  | .pod => b.pod
  | .core => b.core

/-- The first level of the list on which a coordinate is given. -/
def firstCoordinate? (b : AddressBuilder) : List Level → Option Level
  | [] => none
  | level :: rest => if (b.coordinate level).isSome then some level else b.firstCoordinate? rest

/-- Accepts a coordinate exactly if the tier has one on that level. -/
def requireCoordinate (tier : Tier) (level : Level) (value : Option UInt64) :
    Except AddressError Unit :=
  match value, tier.carries level with
  | some _, true | none, false => .ok ()
  | none, true => .error (.missingCoordinate tier level)
  | some _, false => .error (.extraCoordinate tier level)

/-- The address described, if tier, mode and coordinates go together. -/
def build (b : AddressBuilder) : Except AddressError Address :=
  match b.tier with
  | none => .error .noTier
  | some tier =>
    match b.mode with
    | .relative =>
      if tier.allowsRelative then
        match b.firstCoordinate? Level.all with
        | some level => .error (.relativeWithCoordinate tier level)
        | none => .ok ⟨tier, .relative, b.offset, none, none, none, none⟩
      else .error (.mustBeAbsolute tier)
    | .absolute => do
      requireCoordinate tier .pxn b.pxn
      requireCoordinate tier .pod b.pod
      requireCoordinate tier .core b.core
      return ⟨tier, .absolute, b.offset, b.pxn, b.pod, b.core, none⟩

end AddressBuilder

end TieredMemory
