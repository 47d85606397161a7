import TieredMemory.Range.Region

/-!
# Machine descriptions

A machine is a topology with the sizes of its memories.
-/
set_option autoImplicit false

namespace TieredMemory

/-- A memory that its owner has split into equal banks. -/
structure BankedMemory where
  /-- Bytes of all banks together. -/
  size : UInt64
  banks : UInt64
  /-- Bytes per stripe; 0 stands for a stripe as large as a bank. -/
  interleave : UInt64
  deriving DecidableEq

namespace BankedMemory

variable (b : BankedMemory)

/-- Bytes per bank; 0 if there are no banks. -/
def bankSize : UInt64 := if banked : b.banks = 0 then 0 else Word.div b.size b.banks banked

/-- The stripe in force. -/
def stripe : UInt64 := if b.interleave = 0 then b.bankSize else b.interleave

/-- Bytes from one stripe of a bank to its next, or the largest word if that is larger. -/
def step : UInt64 := Word.mulSaturating b.stripe b.banks

def region : Except AddressError Region := Region.make b.bankSize b.stripe b.step

end BankedMemory

structure Machine where
  name : String
  pxns : UInt64
  pods : UInt64
  cores : UInt64
  coreThreads : UInt64
  /-- Bytes of each core's L1 scratchpad. -/
  l1spSize : UInt64
  /-- Each pod's L2 scratchpad. -/
  l2sp : BankedMemory
  /-- Each PXN's DRAM. -/
  dram : BankedMemory
  /-- Bytes of each core's control registers. -/
  ctrlSize : UInt64
  deriving DecidableEq

namespace Machine

/-- Threads of a core in a description that does not say. -/
def defaultCoreThreads : UInt64 := 16

/-- Bytes of control registers in a description that does not say. -/
def defaultCtrlSize : UInt64 := 4096

variable (machine : Machine)

def topology : Topology := ⟨machine.pxns, machine.pods, machine.cores⟩

/-- The configured bytes of a tier for one owner. -/
def tierSize : Tier → UInt64
  | .l1sp => machine.l1spSize
  | .l2sp => machine.l2sp.size
  | .dram => machine.dram.size
  | .ctrl => machine.ctrlSize

/-- The region that one owner of the tier has. -/
def region : Tier → Except AddressError Region
  | .l1sp => Region.unstriped machine.l1spSize
  | .ctrl => Region.unstriped machine.ctrlSize
  | .l2sp => machine.l2sp.region
  | .dram => machine.dram.region

/-- The address map of the machine. -/
def addressMap : Logged AddressError AddressMap := do
  let m ← AddressMap.planLogged machine.topology
  Logged.emit (.machineMapped machine.name machine.topology)
  return m

end Machine

end TieredMemory
