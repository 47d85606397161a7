import TieredMemory.AddressMap.Logged
import TieredMemory.Text.Pad

/-!
# The linker script of an address map

Programs are linked against the relative windows, so one binary runs on every core. DRAM is split
into a text region of fixed size and a data region with the rest.
-/
set_option autoImplicit false

namespace TieredMemory.Firmware.LinkerScript

/-- Bytes at the bottom of the DRAM window that hold the program text. -/
def dramTextSize : UInt64 := 0x800000

def sectionAlign : Nat := 16

structure MemoryRegion where
  name : String
  attributes : String
  origin : UInt64
  length : UInt64
  deriving DecidableEq

/-- An output section, the input sections it collects, and the region it goes to. -/
structure OutputSection where
  name : String
  inputs : List String
  region : String

def sections : List OutputSection :=
  [⟨".l1sp", [".l1sp.interrupt", ".l1sp", ".l1sp.*"], "L1SP_VMA"⟩,
    ⟨".l2sp", [".l2sp.interrupt", ".l2sp", ".l2sp.*"], "L2SP_VMA"⟩,
    ⟨".text.dram", [".text.interrupt", ".crtbegin", ".text", ".text.startup", ".text.*"],
      "DRAM_T_VMA"⟩,
    ⟨".eh_frame.dram", [".eh_frame", ".eh_frame*"], "DRAM_D_VMA"⟩,
    ⟨".rodata.dram", [".rodata", ".rodata.*", ".srodata.cst16", ".srodata.cst8", ".srodata.cst4",
      ".srodata.cst2", ".srodata"], "DRAM_D_VMA"⟩,
    ⟨".data.dram", [".dram", ".dram.*", ".data", ".data*"], "DRAM_D_VMA"⟩,
    ⟨".sdata.dram", [".sdata", ".sdata.*", ".sdata*", ".sdata*.gnu.linkonce.s.*", ".sbss", ".sbss*",
      ".gnu.linkonce.sb.*", ".scommon"], "DRAM_D_VMA"⟩,
    ⟨".bss.dram", [".bss", ".bss*"], "DRAM_D_VMA"⟩]

/-- The first word and the number of bytes of a tier's relative window. -/
def window (m : AddressMap) (a : Address) : Logged AddressError (UInt64 × UInt64) := do
  let origin ← m.encodeLogged a
  let length ← Logged.ofExcept (m.layout.windowSize a.tier a.mode)
  return (origin, length)

/-- The regions of the `MEMORY` block: both scratchpads, then the two parts of DRAM. -/
def regions (m : AddressMap) : Logged (Failure AddressError) (List MemoryRegion) := do
  let (l1sp, l1spSize) ← (window m (.relativeL1sp 0)).mapError .error
  let (l2sp, l2spSize) ← (window m (.relativeL2sp 0)).mapError .error
  let (dram, dramSize) ← (window m (.relativeDram 0)).mapError .error
  let dataOrigin ← Logged.ofExcept (Failure.ofFault (Word.add dram dramTextSize))
  let dataLength ← Logged.ofExcept (Failure.ofFault (Word.sub dramSize dramTextSize))
  return [⟨"L1SP_VMA", "rw", l1sp, l1spSize⟩, ⟨"L2SP_VMA", "rw", l2sp, l2spSize⟩,
    ⟨"DRAM_T_VMA", "rwx", dram, dramTextSize⟩, ⟨"DRAM_D_VMA", "rwx", dataOrigin, dataLength⟩]

/-- Eight digits suffice for the relative windows. -/
def shortAddress (w : UInt64) : String := "0x" ++ Word.hexPadded 8 w

def regionLine (r : MemoryRegion) : String :=
  let head := s!"{r.name} ({r.attributes})"
  let padded := Text.padRight 16 head
  s!"{padded} : ORIGIN = {shortAddress r.origin}, LENGTH = {shortAddress r.length}"

def sectionLines (s : OutputSection) : List String :=
  [s.name ++ " :", "\x7b"] ++ s.inputs.map (fun input => "*(" ++ input ++ ")") ++
    [s!". = ALIGN({sectionAlign});", "\x7d > " ++ s.region, ""]

/-- The global pointer is the start of the text region. -/
def globalPointer (rs : List MemoryRegion) : UInt64 :=
  match rs.find? (·.name == "DRAM_T_VMA") with
  | some r => r.origin
  | none => 0

def lines (rs : List MemoryRegion) : List String :=
  ["MEMORY", "\x7b"] ++ rs.map regionLine ++ ["\x7d", "", "SECTIONS", "\x7b"] ++
    sections.flatMap sectionLines ++
    ["__global_pointer$ = " ++ shortAddress (globalPointer rs) ++ ";", "_end = .;", "end = .;",
      "_edata = .;", "ENTRY(_start)", "\x7d"]

def text (rs : List MemoryRegion) : String := String.join ((lines rs).map (· ++ "\n"))

def render (m : AddressMap) : Logged (Failure AddressError) String := do
  let rs ← regions m
  Logged.noting (.ok (text rs)) fun t => .scriptRendered t.utf8ByteSize

end TieredMemory.Firmware.LinkerScript
