import TieredMemory.Proofs.AddressMap.Acceptance
import TieredMemory.Proofs.AddressMap.Arithmetic

/-!
# Relative windows

No topology moves the words of relative addresses: those of a tier follow each other from a fixed
word on, and there is a fixed number of them. So a core reaches the bytes of a tier by relative
words up to that number and no further, whatever the size of the memory.
-/
set_option autoImplicit false

namespace TieredMemory

/-- The number of the first word of the tier's relative window. -/
def Tier.relativeStart : Tier → Nat
  | .dram => 0x40000000
  | .l2sp => 0x20000000
  | .l1sp | .ctrl => 0

/-- How many words the tier's relative window has. -/
def Tier.relativeSize : Tier → Nat
  | .dram => 0x40000000
  | .l2sp | .l1sp => 0x20000000
  | .ctrl => 0

theorem Tier.relativeWindow_le (tier : Tier) : tier.relativeStart + tier.relativeSize ≤ 2 ^ 31 := by
  cases tier <;> decide

theorem Layout.two_pow_relative_bits (l : Layout) {tier : Tier} {off : Field}
    (ho : Field.offset? .relative tier = some off) :
    2 ^ (l.field off).bits = tier.relativeSize := by
  cases tier <;> cases ho <;> rfl

namespace AddressMap

variable {m : AddressMap} {tier : Tier} {off : Field} {offset w base : UInt64}

/-- The words of a tier's relative addresses follow each other in the order of the offsets. -/
theorem encode_relative_iff (ho : Field.offset? .relative tier = some off) :
    m.encode (.relative tier offset) = .ok w ↔
      offset.toNat < tier.relativeSize ∧ w.toNat = tier.relativeStart + offset.toNat := by
  have hin : m.Inside (.relative tier offset) := fun level value hv => by cases level <;> cases hv
  obtain ⟨fields, he⟩ := Field.exists_encoding ho
  have hnumber {raw : UInt64} (h : m.encode (.relative tier offset) = .ok raw) :
      raw.toNat = tier.relativeStart + offset.toNat := by
    rw [toNat_of_encode (a := .relative tier offset) he ho h,
      toWrite_eq (a := .relative tier offset) ho]
    cases tier <;> cases ho <;>
      simp [Address.relative, Field.selectors, Address.content, Layout.field, Tier.relativeStart]
  rw [← m.layout.two_pow_relative_bits ho, ← Bitfield.fits_iff]
  constructor
  · intro h
    exact ⟨((encode_eq_ok_iff (a := .relative tier offset) w he ho).mp h).2.1, hnumber h⟩
  · rintro ⟨hfit, hw⟩
    obtain ⟨raw, hraw, _⟩ := encode_represents (a := .relative tier offset) hin he ho hfit
    obtain rfl : raw = w := UInt64.toNat_inj.mp ((hnumber hraw).trans hw.symm)
    exact hraw

/-- The first word of the window is that of offset 0. -/
theorem encode_relative_zero_iff (ho : Field.offset? .relative tier = some off) :
    m.encode (.relative tier 0) = .ok base ↔ base.toNat = tier.relativeStart := by
  have hsize : 0 < tier.relativeSize := by cases tier <;> cases ho <;> decide
  rw [encode_relative_iff ho, UInt64.toNat_zero, Nat.add_zero]
  exact and_iff_right hsize

theorem exists_relativeBase (m : AddressMap) (ho : Field.offset? .relative tier = some off) :
    ∃ base, m.encode (.relative tier 0) = .ok base ∧ base.toNat = tier.relativeStart := by
  have hbase : (UInt64.ofNat tier.relativeStart).toNat = tier.relativeStart := by
    cases tier <;> rfl
  exact ⟨_, (encode_relative_zero_iff ho).mpr hbase, hbase⟩

/-- A word of the window is that of its distance from the first. -/
theorem encode_relative_sub (ho : Field.offset? .relative tier = some off)
    (hbase : base.toNat = tier.relativeStart) (hle : tier.relativeStart ≤ w.toNat)
    (hlt : w.toNat < tier.relativeStart + tier.relativeSize) :
    m.encode (.relative tier (w - base)) = .ok w := by
  have hsub : (w - base).toNat = w.toNat - base.toNat := Word.toNat_sub_of_le (hbase ▸ hle)
  rw [encode_relative_iff ho, hsub]
  omega

/-- Only words below bit 31 are those of relative descriptions. -/
theorem lt_of_encode_relative {a : Address} (hmode : a.mode = .relative)
    (h : m.encode a = .ok w) : w.toNat < 2 ^ 31 := by
  obtain ⟨off, ho⟩ := exists_offset_of_encode h
  obtain ⟨_, he⟩ := encode_takenFor_of_encode h
  have htaken : a.takenFor = .relative a.tier a.offset := by
    rw [Address.takenFor, hmode]
    rfl
  rw [hmode] at ho
  rw [htaken, encode_relative_iff ho] at he
  have hle := a.tier.relativeWindow_le
  omega

/-! ## Bytes within reach -/

variable (m) in
/-- Some relative word leads the core to the byte that it has or shares in the tier. -/
def Reaches (core : CoreId) (tier : Tier) (offset : UInt64) : Prop :=
  ∃ raw word, Word.bit raw 63 = false ∧ m.toAbsolute raw core = .ok word ∧
    m.encode (.absoluteFor tier core offset) = .ok word

variable {raw : UInt64} {core : CoreId}

/-- The byte that a relative word means lies in the relative window of its tier. -/
theorem offset_lt_relativeSize (h : Word.bit raw 63 = false) (core : CoreId) :
    (m.decode raw core).offset.toNat < (m.decode raw core).tier.relativeSize := by
  obtain ⟨fields, hr⟩ := decode_readAs (m := m) raw core
  obtain ⟨off, ho⟩ := Field.exists_offset hr.encoding
  have hfit := (Bitfield.fits_iff _).mp (offset_fits hr ho)
  rw [mode_of_not_bit h core] at ho
  rwa [m.layout.two_pow_relative_bits ho] at hfit

theorem lt_relativeSize_of_reaches (hcore : m.topology.HasCore core)
    (h : m.Reaches core tier offset) : offset.toNat < tier.relativeSize := by
  obtain ⟨raw, word, hraw, hword, henc⟩ := h
  obtain ⟨word', hword', htarget⟩ := toAbsolute_of_not_bit hraw hcore
  cases hword'.symm.trans hword
  -- one word has one reading
  have hread := decode_of_encode (Address.wellFormed_absoluteFor _ _ _) henc core
  rw [decode_target htarget core, Address.withIssuer, Address.isRelative,
    Address.mode_absoluteFor] at hread
  obtain ⟨htier, hoffset, _⟩ := Address.absoluteFor_eq_iff.mp hread
  rw [← htier, ← hoffset]
  exact offset_lt_relativeSize hraw core

theorem reaches_of_lt_relativeSize (hcore : m.topology.HasCore core)
    (h : offset.toNat < tier.relativeSize) : m.Reaches core tier offset := by
  have hallowed : tier.allowsRelative = true := by
    cases tier with
    | ctrl => exact absurd h (Nat.not_lt_zero _)
    | _ => rfl
  obtain ⟨off, ho⟩ := Field.exists_relative_offset hallowed
  have hle := tier.relativeWindow_le
  have hlt : tier.relativeStart + offset.toNat < 2 ^ 31 := by omega
  obtain ⟨raw, hraw⟩ : ∃ raw : UInt64, raw.toNat = tier.relativeStart + offset.toNat :=
    ⟨.ofNat _, UInt64.toNat_ofNat_of_lt' (hlt.trans (by decide))⟩
  have hbit : Word.bit raw 63 = false :=
    (Word.toNat_lt_two_pow_iff raw 31).mp (hraw ▸ hlt) 63 (by decide)
  have henc := (encode_relative_iff (m := m) ho).mpr ⟨h, hraw⟩
  have hread := decode_of_encode (Address.wellFormed_relative hallowed offset) henc core
  obtain ⟨word, hword, htarget⟩ := toAbsolute_of_not_bit hbit hcore
  rw [target, hread] at htarget
  exact ⟨raw, word, hbit, hword, htarget⟩

/-- Relative words reach as far as the relative window, for every core and in every machine. -/
theorem reaches_iff (hcore : m.topology.HasCore core) :
    m.Reaches core tier offset ↔ offset.toNat < tier.relativeSize :=
  ⟨lt_relativeSize_of_reaches hcore, reaches_of_lt_relativeSize hcore⟩

end AddressMap

end TieredMemory
