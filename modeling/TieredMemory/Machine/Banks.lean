import TieredMemory.Machine
import TieredMemory.Text.Pad

/-!
# All banks of a machine

Listed per PXN: its DRAM banks, then per pod its L2 banks, then per core its L1 scratchpad and its
control registers.
-/
set_option autoImplicit false

namespace TieredMemory

/-- One bank with the addresses its decoder answers to. -/
structure Bank where
  tier : Tier
  pxn : UInt64
  pod : Option UInt64
  core : Option UInt64
  /-- The index within the owner's region. -/
  index : UInt64
  range : AddressRange
  deriving DecidableEq

namespace Bank

/-- A part of a label for a level that may be missing. -/
def labelPart (level : String) : Option UInt64 → String
  | none => ""
  | some value => "_" ++ level ++ Word.decimal value

/-- The name of the bank's component, such as `pxn0_pod1_l2sp2`. -/
def label (b : Bank) : String :=
  "pxn" ++ Word.decimal b.pxn ++ labelPart "pod" b.pod ++ labelPart "core" b.core ++
    match b.tier with
    | .l1sp => "_l1sp"
    | .ctrl => "_ctrl"
    | .l2sp => "_l2sp" ++ Word.decimal b.index
    | .dram => "_dram" ++ Word.decimal b.index

def text (b : Bank) : String := Text.padRight 24 b.label ++ " " ++ b.range.text

end Bank

namespace Machine

/-- Steps of a count, as the index of an instance. -/
def instances {ε α : Type} (count : UInt64) (f : UInt64 → Logged ε (List α)) :
    Logged ε (List α) :=
  Logged.collect (fun i => f (UInt64.ofNat i)) 0 count.toNat

variable (machine : Machine) (m : AddressMap)

/-- One bank of the tier's region, as a list of one. -/
def bankOf (r : Region) (tier : Tier) (owner : CoreId) (index : UInt64) :
    Logged (Failure AddressError) (List Bank) := do
  let range ← r.placeFor m tier owner index
  let pod := if tier.carries .pod then some owner.pod else none
  let core := if tier.carries .core then some owner.core else none
  return [⟨tier, owner.pxn, pod, core, index, range⟩]

/-- Every bank of the machine under the given map. -/
def banksOn : Logged (Failure AddressError) (List Bank) := do
  let l1sp ← Logged.ofExcept (Failure.ofError (machine.region .l1sp))
  let ctrl ← Logged.ofExcept (Failure.ofError (machine.region .ctrl))
  let l2sp ← Logged.ofExcept (Failure.ofError (machine.region .l2sp))
  let dram ← Logged.ofExcept (Failure.ofError (machine.region .dram))
  let banks ← instances machine.pxns fun pxn => do
    let dramBanks ← instances dram.banks fun i => bankOf m dram .dram ⟨pxn, 0, 0⟩ i
    let podBanks ← instances machine.pods fun pod => do
      let l2spBanks ← instances l2sp.banks fun i => bankOf m l2sp .l2sp ⟨pxn, pod, 0⟩ i
      let coreBanks ← instances machine.cores fun core => do
        let scratchpad ← bankOf m l1sp .l1sp ⟨pxn, pod, core⟩ 0
        let control ← bankOf m ctrl .ctrl ⟨pxn, pod, core⟩ 0
        return scratchpad ++ control
      return l2spBanks ++ coreBanks
    return dramBanks ++ podBanks
  Logged.emit (.banksListed machine.name banks.length)
  return banks

/-- Every bank of the machine under its own map. -/
def banks : Logged (Failure AddressError) (List Bank) := do
  let m ← machine.addressMap.mapError .error
  machine.banksOn m

end Machine

end TieredMemory
