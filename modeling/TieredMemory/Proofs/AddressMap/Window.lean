import TieredMemory.Proofs.AddressMap.RoundTrip

/-!
# The window of one owner

The offset has the lowest bits of the word, so the words of one owner follow each other in the order
of their offsets, from the word of offset 0 on.
-/
set_option autoImplicit false

namespace TieredMemory

namespace Address

theorem content_of_ne_offset {a : Address} {fields : List Field} {off f : Field} (offset : UInt64)
    (he : Field.encoding? a.mode a.tier = some fields)
    (ho : Field.offset? a.mode a.tier = some off) (hf : f ∈ fields) (hne : f ≠ off) :
    ({ a with offset := offset } : Address).content f = a.content f := by
  obtain ⟨tier, mode, _, _, _, _, _⟩ := a
  cases mode <;> cases tier <;> cases he <;> cases ho <;> revert hf hne <;> cases f <;>
    simp [content]

theorem absoluteFor_with_offset (tier : Tier) (owner : CoreId) (offset offset' : UInt64) :
    ({ absoluteFor tier owner offset with offset := offset' } : Address) =
      absoluteFor tier owner offset' := by
  cases tier <;> rfl

end Address

namespace AddressMap

variable {m : AddressMap}

theorem inside_absoluteFor_iff (tier : Tier) (owner : CoreId) (offset : UInt64) :
    m.Inside (.absoluteFor tier owner offset) ↔ m.topology.HasOwner tier owner := by
  simp only [Inside, Topology.HasOwner, Address.coordinate_absoluteFor]
  constructor
  · intro h level hc
    exact h level _ (by rw [if_pos hc])
  · intro h level value hv
    split at hv
    · next hc =>
      cases hv
      exact h level hc
    · cases hv

theorem inside_offset {a : Address} (hin : m.Inside a) (offset : UInt64) :
    m.Inside { a with offset := offset } := by
  intro level value hv
  exact hin level value (by cases level <;> exact hv)

/-- Writing another offset represents the address with that offset. -/
theorem represents_offset {a : Address} {fields : List Field} {off : Field} {raw offset : UInt64}
    (he : Field.encoding? a.mode a.tier = some fields)
    (ho : Field.offset? a.mode a.tier = some off) (hr : m.Represents raw a fields)
    (hfit : (m.layout.field off).fits offset = true) :
    m.Represents ((m.layout.field off).set raw offset) { a with offset := offset } fields := by
  have hoff : off ∈ fields := Field.mem_encoding he ho (by simp)
  constructor
  · intro f hf
    by_cases hne : f = off
    · subst hne
      exact (Bitfield.get_set raw offset hfit).trans
        (Address.content_offset { a with offset := offset } ho).symm
    · rw [Address.content_of_ne_offset offset he ho hf hne, ← hr.contents f hf]
      exact Bitfield.get_set_of_apart _ _ (m.shape.apart he hf hoff hne)
  · intro i hi
    rw [Bitfield.bit_set] at hi
    split at hi
    · next hm => exact ⟨off, hoff, hm⟩
    · exact hr.padding i hi

/-- The words of an address with all offsets that fit follow each other. -/
theorem exists_base {a : Address} {off : Field} (hin : m.Inside a)
    (ho : Field.offset? a.mode a.tier = some off) :
    ∃ base : UInt64, ∀ offset, (m.layout.field off).fits offset = true →
      ∃ raw, m.encode { a with offset := offset } = .ok raw ∧
        raw.toNat = base.toNat + offset.toNat := by
  obtain ⟨fields, he⟩ := Field.exists_encoding ho
  have hzero : (m.layout.field off).fits 0 = true :=
    (Bitfield.fits_iff_le_mask 0).mpr UInt64.zero_le
  let a₀ : Address := { a with offset := 0 }
  obtain ⟨base, hbase, hr⟩ := encode_represents (a := a₀) (inside_offset hin 0) he ho hzero
  refine ⟨base, fun offset hfit => ?_⟩
  have hr' := represents_offset (a := a₀) he ho hr hfit
  have hclear : (m.layout.field off).get base = 0 := by
    have h := hr.contents off (Field.mem_encoding he ho (by simp))
    rw [Address.content_offset a₀ ho] at h
    exact h
  refine ⟨_, (encode_eq_ok_iff (a := { a with offset := offset }) _ he ho).mpr
    ⟨inside_offset hin offset, hfit, hr'⟩, ?_⟩
  rw [Bitfield.toNat_set_of_get_eq_zero hclear hfit, m.shape.offset_lo ho, Nat.pow_zero,
    Nat.mul_one]

/-- The words of an owner follow each other from the word of offset 0 on. -/
theorem exists_base_of_owner {tier : Tier} {owner : CoreId} {off : Field}
    (howner : m.topology.HasOwner tier owner)
    (ho : Field.offset? .absolute tier = some off) :
    ∃ base : UInt64, ∀ offset, (m.layout.field off).fits offset = true →
      ∃ raw, m.encode (.absoluteFor tier owner offset) = .ok raw ∧
        raw.toNat = base.toNat + offset.toNat := by
  have hin := (inside_absoluteFor_iff (m := m) tier owner 0).mpr howner
  have ho' : Field.offset? (Address.absoluteFor tier owner 0).mode
      (Address.absoluteFor tier owner 0).tier = some off := by simpa using ho
  obtain ⟨base, hbase⟩ := exists_base hin ho'
  exact ⟨base, fun offset hfit => Address.absoluteFor_with_offset tier owner 0 offset ▸
    hbase offset hfit⟩

end AddressMap

end TieredMemory
