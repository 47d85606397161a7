import TieredMemory.Files.Tree
import TieredMemory.Main
import TieredMemory.Proofs.AddressMap.Canonical
import TieredMemory.Proofs.Machine.Ownership
import TieredMemory.Proofs.Range.Coverage
import TieredMemory.Proofs.AddressMap.Arithmetic
import TieredMemory.Proofs.AddressMap.Separation
import TieredMemory.Proofs.AddressMap.Resolution
import TieredMemory.Proofs.AddressMap.Footprint
import TieredMemory.Proofs.Layout.Planning
import TieredMemory.Proofs.AddressMap.Acceptance
import TieredMemory.Proofs.Toml.Runs
import TieredMemory.Proofs.Toml.Strings
import TieredMemory.Proofs.Machine.Saving
import TieredMemory.Proofs.Range.Faults
import TieredMemory.Proofs.Machine.Faults
import TieredMemory.Proofs.AddressMap.Owners
import TieredMemory.Proofs.Firmware.Header
import TieredMemory.Proofs.Firmware.MemoryMap
import TieredMemory.Proofs.Bitfield.Overlap
import TieredMemory.Proofs.Machine.Regions
import TieredMemory.Proofs.Machine.Warnings
import TieredMemory.Proofs.AddressMap.Provenance
import TieredMemory.Proofs.Machine.Labels
import TieredMemory.Proofs.Number
import TieredMemory.Proofs.AddressMap.Description
import TieredMemory.Proofs.Json.Reading
import TieredMemory.Proofs.Json.Codec
import TieredMemory.Proofs.Bitfield.Laws
import TieredMemory.Proofs.Machine.Discovery
