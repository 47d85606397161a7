import TieredMemory.AddressMap.Logged

/-!
# Describing an address word

A word is described by its reading; a relative word also by the absolute word that its issuer means.
-/
set_option autoImplicit false

namespace TieredMemory

/-- A relative word that means nothing to the core that issues it. -/
structure ResolutionError where
  issuer : CoreId
  cause : AddressError
  deriving DecidableEq

def ResolutionError.message (e : ResolutionError) : String :=
  s!"resolving against {e.issuer.text}: {e.cause.message}"

namespace AddressMap

variable (m : AddressMap)

def reading (raw : UInt64) (a : Address) : String := s!"{Word.addressText raw} {a.text}\n"

/-- The reading of a word, and for a relative one the reading of its absolute form. -/
def describe (raw : UInt64) (issuer : CoreId) : Logged ResolutionError String := do
  let a ← m.decodeLogged raw issuer
  if a.isRelative then
    let absolute ← (m.toAbsoluteLogged raw issuer).mapError (⟨issuer, ·⟩)
    let resolved ← m.decodeLogged absolute issuer
    return reading raw a ++ s!"  from {issuer.text}: {reading absolute resolved}"
  else return reading raw a

end AddressMap

end TieredMemory
