import TieredMemory.AddressMap
import TieredMemory.Event

/-!
# The address map with its log

Each operation is the plain one together with the events it is worth.
-/
set_option autoImplicit false

namespace TieredMemory

namespace AddressMap

def planLogged (t : Topology) : Logged AddressError AddressMap :=
  Logged.noting (plan t) fun m => .planned t m.layout

variable (m : AddressMap)

def encodeLogged (a : Address) : Logged AddressError UInt64 :=
  Logged.noting (m.encode a) fun raw => .encoded a raw

def encodeBuilderLogged (b : AddressBuilder) : Logged AddressError UInt64 := do
  let a ← Logged.ofExcept b.build
  m.encodeLogged a

def decodeLogged {ε : Type} (raw : UInt64) (issuer : CoreId) : Logged ε Address :=
  let a := m.decode raw issuer
  ⟨[.decoded raw a], .ok a⟩

def toAbsoluteLogged (raw : UInt64) (issuer : CoreId) : Logged AddressError UInt64 := do
  let a ← m.decodeLogged raw issuer
  if a.isAbsolute then return raw
  else m.encodeLogged (.absoluteFor a.tier issuer a.offset)

theorem outcome_toAbsoluteLogged (raw : UInt64) (issuer : CoreId) :
    (m.toAbsoluteLogged raw issuer).outcome = m.toAbsolute raw issuer := by
  unfold toAbsoluteLogged toAbsolute decodeLogged
  simp only [Logged.outcome_bind, Except.bind]
  split <;> simp [encodeLogged]

end AddressMap

end TieredMemory
