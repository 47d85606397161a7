import TieredMemory.Proofs.AddressMap.Resolution

/-!
# Who is given a word

The words of a core's memories are those of their owners, so only the coordinates that the tier
carries are compared with the counts of the machine: L1SP and control registers are for cores of the
machine alone, L2SP for every core of one of its pods, DRAM for every core of one of its PXNs.
-/
set_option autoImplicit false

namespace TieredMemory

/-- A tier that carries a level carries the levels around it. -/
theorem Tier.carries_outer {tier : Tier} {level l : Level} (h : tier.carries level = true)
    (hl : l ∈ level.outer) : tier.carries l = true := by
  cases tier <;> cases level <;> cases l <;> simp_all [carries, Level.outer]

/-- The owners of a tier, by the coordinates that count. -/
theorem Topology.hasOwner_iff (t : Topology) (id : CoreId) :
    (t.HasOwner .l1sp id ↔ t.HasCore id) ∧ (t.HasOwner .ctrl id ↔ t.HasCore id) ∧
      (t.HasOwner .l2sp id ↔ id.pxn < t.pxns ∧ id.pod < t.pods) ∧
      (t.HasOwner .dram id ↔ id.pxn < t.pxns) := by
  refine ⟨⟨fun h level => h level ?_, (·.hasOwner _)⟩, ⟨fun h level => h level ?_, (·.hasOwner _)⟩,
    ⟨fun h => ⟨h .pxn rfl, h .pod rfl⟩, fun h => ?_⟩, ⟨fun h => h .pxn rfl, fun h => ?_⟩⟩
  · cases level <;> rfl
  · cases level <;> rfl
  · exact hasOwner h.1 (fun _ => h.2) (absurd · (by decide))
  · exact hasOwner h (absurd · (by decide)) (absurd · (by decide))

namespace AddressMap

variable {m : AddressMap} {tier : Tier} {id : CoreId} {offset raw : UInt64}

variable (m tier id) in
/-- The answer is a word exactly for owners of the tier, and names the outermost coordinate outside
the machine, of those that the tier carries, to all others. -/
structure AnswersOwners (answer : Except AddressError UInt64) : Prop where
  accepts : (∃ word, answer = .ok word) ↔ m.topology.HasOwner tier id
  refuses : ¬ m.topology.HasOwner tier id → ∃ level, tier.carries level = true ∧
    m.topology.count level ≤ id.place level ∧
    (∀ l ∈ level.outer, id.place l < m.topology.count l) ∧
    answer = .error (.coordinateOutOfRange level (id.place level) (m.topology.count level))

/-- Coordinates come before the offset: an owner's word only depends on whether the offset fits. -/
theorem answersOwners_encode
    (hfit : ∀ off, Field.offset? .absolute tier = some off →
      (m.layout.field off).fits offset = true) :
    m.AnswersOwners tier id (m.encode (.absoluteFor tier id offset)) := by
  have hinside := inside_absoluteFor_iff (m := m) tier id offset
  have hrefuses : ¬ m.topology.HasOwner tier id → ∃ level, tier.carries level = true ∧
      m.topology.count level ≤ id.place level ∧
      (∀ l ∈ level.outer, id.place l < m.topology.count l) ∧
      m.encode (.absoluteFor tier id offset) =
        .error (.coordinateOutOfRange level (id.place level) (m.topology.count level)) := by
    intro hout
    obtain ⟨level, value, hfirst, he⟩ := encode_outside (mt hinside.mp hout)
    have hgiven := hfirst.given
    rw [Address.coordinate_absoluteFor] at hgiven
    split at hgiven
    · next hcarries =>
      cases hgiven
      refine ⟨level, hcarries, hfirst.outside, fun l hl => hfirst.outer l hl _ ?_, he⟩
      rw [Address.coordinate_absoluteFor, if_pos (Tier.carries_outer hcarries hl)]
    · cases hgiven
  refine ⟨⟨fun ⟨word, hword⟩ => ?_, fun howner => ?_⟩, hrefuses⟩
  · by_contra hout
    obtain ⟨level, _, _, _, he⟩ := hrefuses hout
    cases he.symm.trans hword
  · obtain ⟨off, ho⟩ := Field.exists_absolute_offset tier
    obtain ⟨base, hbase⟩ := exists_base_of_owner howner ho
    obtain ⟨word, hword, _⟩ := hbase offset (hfit off ho)
    exact ⟨word, hword⟩

theorem answersOwners_base (m : AddressMap) (tier : Tier) (id : CoreId) :
    m.AnswersOwners tier id (m.base tier id) :=
  answersOwners_encode fun _ _ => (Bitfield.fits_iff_le_mask 0).mpr UInt64.zero_le

theorem answersOwners_toAbsolute (h : Word.bit raw 63 = false) (id : CoreId) :
    m.AnswersOwners (m.decode raw id).tier id (m.toAbsolute raw id) := by
  have hmode := mode_of_not_bit (m := m) h id
  rw [toAbsolute_of_relative hmode]
  exact answersOwners_encode fun _ => absolute_offset_fits hmode

/-- Bases and resolved words are given to the owners of the tier and to nobody else; a core outside
the machine is an owner if the coordinates outside are none that the tier carries. -/
theorem answers_owners (m : AddressMap) (id : CoreId) :
    (∀ tier, m.AnswersOwners tier id (m.base tier id)) ∧
      (∀ raw, Word.bit raw 63 = false →
        m.AnswersOwners (m.decode raw id).tier id (m.toAbsolute raw id)) ∧
      (m.topology.HasOwner .l1sp id ↔ m.topology.HasCore id) ∧
      (m.topology.HasOwner .ctrl id ↔ m.topology.HasCore id) ∧
      (m.topology.HasOwner .l2sp id ↔ id.pxn < m.topology.pxns ∧ id.pod < m.topology.pods) ∧
      (m.topology.HasOwner .dram id ↔ id.pxn < m.topology.pxns) :=
  ⟨fun tier => answersOwners_base m tier id, fun _ h => answersOwners_toAbsolute h id,
    m.topology.hasOwner_iff id⟩

/-- A machine of five pods gives a core of the sixth a word in DRAM, and a core that no pod has a
word in the L2SP of a pod. -/
theorem answers_core_outside :
    plan ⟨3, 5, 7⟩ = .ok uneven ∧
      ¬ uneven.topology.HasCore ⟨0, 5, 0⟩ ∧
      uneven.base .dram ⟨0, 5, 0⟩ = .ok 0xC000000000000000 ∧
      uneven.toAbsolute 0x40000000 ⟨0, 5, 0⟩ = .ok 0xC000000000000000 ∧
      ¬ uneven.topology.HasCore ⟨0, 0, 7⟩ ∧
      uneven.base .l2sp ⟨0, 0, 7⟩ = .ok 0xA000000000000000 := by
  refine ⟨rfl, fun h => ?_, rfl, rfl, fun h => ?_, rfl⟩
  · exact absurd (h .pod) (by decide)
  · exact absurd (h .core) (by decide)

end AddressMap

end TieredMemory
