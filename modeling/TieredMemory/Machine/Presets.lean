import TieredMemory.Machine

/-!
# Built-in machines
-/
set_option autoImplicit false

namespace TieredMemory.Machine

/-- The smallest machine: one core and memories of one bank. -/
def singleCore : Machine where
  name := "single-core"
  pxns := 1
  pods := 1
  cores := 1
  coreThreads := defaultCoreThreads
  l1spSize := 0x20000
  l2sp := ⟨0x100000, 1, 0⟩
  dram := ⟨0x40000000, 1, 0⟩
  ctrlSize := defaultCtrlSize

def pandohammer : Machine where
  name := "pandohammer"
  pxns := 1
  pods := 8
  cores := 64
  coreThreads := defaultCoreThreads
  l1spSize := 0x20000
  l2sp := ⟨0x400000, 4, 64⟩
  dram := ⟨0x40000000, 8, 64⟩
  ctrlSize := defaultCtrlSize

def multiPxn (pxns : UInt64) : Machine where
  name := s!"multi-pxn-{pxns}"
  pxns := pxns
  pods := 4
  cores := 16
  coreThreads := defaultCoreThreads
  l1spSize := 0x10000
  l2sp := ⟨0x100000, 2, 64⟩
  dram := ⟨0x40000000, 4, 4096⟩
  ctrlSize := defaultCtrlSize

structure Preset where
  name : String
  description : String
  machine : Machine

def presets : List Preset :=
  [⟨"single-core", "1 PXN x 1 pod x 1 core, unbanked memories", singleCore⟩,
    ⟨"pandohammer", "1 PXN x 8 pods x 64 cores, 4 L2SP banks, 8 DRAM banks, 64 B interleave",
      pandohammer⟩,
    ⟨"multi-pxn", "4 PXNs x 4 pods x 16 cores, 2 L2SP banks, 4 DRAM banks", multiPxn 4⟩]

def preset? (name : String) : Option Machine :=
  (presets.find? (·.name == name)).map (·.machine)

end TieredMemory.Machine
