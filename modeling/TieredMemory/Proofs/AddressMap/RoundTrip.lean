import TieredMemory.Proofs.Address
import TieredMemory.Proofs.AddressMap.Encoding

/-!
# Reading back what was written

Every word is read as an address that says what the word holds in the fields of its encoding, and a
word that represents an address is read as that address. With the exact condition under which
encoding succeeds this gives the round trip: nothing is lost, and nothing else is refused.
-/
set_option autoImplicit false

namespace TieredMemory

namespace AddressMap

variable {m : AddressMap} {a : Address} {fields : List Field} {off : Field}

/-- A word is read as an address with a meaning, which holds what the word has in its fields. -/
structure ReadAs (m : AddressMap) (raw : UInt64) (issuer : CoreId) (a : Address)
    (fields : List Field) : Prop where
  encoding : Field.encoding? a.mode a.tier = some fields
  contents : ∀ f ∈ fields, m.get raw f = a.content f
  wellFormed : a.WellFormed
  issued : a.withIssuer issuer = a

theorem relative_readAs {raw : UInt64} {issuer : CoreId} (tier : Tier) (offset : UInt64)
    (he : Field.encoding? .relative tier = some fields)
    (hc : ∀ f ∈ fields, m.get raw f = Address.content ⟨tier, .relative, offset, none, none, none,
      some issuer⟩ f) :
    ReadAs m raw issuer ⟨tier, .relative, offset, none, none, none, some issuer⟩ fields := by
  refine ⟨he, hc, ⟨⟨?_, ?_⟩, fun _ => rfl⟩, rfl⟩
  · cases tier <;> first | rfl | cases he
  · intro level
    cases level <;> rfl

theorem absolute_readAs {raw : UInt64} {issuer : CoreId} (tier : Tier) (owner : CoreId)
    (offset : UInt64) (he : Field.encoding? .absolute tier = some fields)
    (hc : ∀ f ∈ fields, m.get raw f = (Address.absoluteFor tier owner offset).content f) :
    ReadAs m raw issuer (.absoluteFor tier owner offset) fields := by
  refine ⟨by simpa using he, hc, Address.wellFormed_absoluteFor tier owner offset, ?_⟩
  rw [Address.withIssuer, Address.isRelative, Address.mode_absoluteFor]
  rfl

theorem decodeRelative_readAs (raw : UInt64) (issuer : CoreId) (habs : m.get raw .isAbsolute = 0) :
    ∃ fields, ReadAs m raw issuer ((m.decodeRelative raw).withIssuer issuer) fields := by
  unfold decodeRelative
  rcases flag_get m raw (f := .relativeIsDram) (by decide) with hd | hd
  · rcases flag_get m raw (f := .relativeIsL2sp) (by decide) with hl | hl
    · rw [if_neg (by simp [hd]), if_neg (by simp [hl])]
      exact ⟨_, relative_readAs .l1sp (m.get raw .relativeL1spOffset) rfl
        (by simp [Address.content, habs, hd, hl])⟩
    · rw [if_neg (by simp [hd]), if_pos (by simp [hl])]
      exact ⟨_, relative_readAs .l2sp (m.get raw .relativeL2spOffset) rfl
        (by simp [Address.content, habs, hd, hl])⟩
  · rw [if_pos (by simp [hd])]
    exact ⟨_, relative_readAs .dram (m.get raw .relativeDramOffset) rfl
      (by simp [Address.content, habs, hd])⟩

theorem decodeAbsolute_readAs (raw : UInt64) (issuer : CoreId)
    (habs : m.get raw .isAbsolute = 1) :
    ∃ fields, ReadAs m raw issuer (m.decodeAbsolute raw) fields := by
  let owner : CoreId := ⟨m.get raw .absolutePxn, m.get raw .absolutePod, m.get raw .absoluteCore⟩
  unfold decodeAbsolute
  rcases flag_get m raw (f := .absoluteIsDram) (by decide) with hd | hd
  · rcases flag_get m raw (f := .absoluteIsL2sp) (by decide) with hl | hl
    · rcases flag_get m raw (f := .absoluteIsCtrl) (by decide) with hc | hc
      · rw [if_neg (by simp [hd]), if_neg (by simp [hl]), if_neg (by simp [hc])]
        exact ⟨_, absolute_readAs .l1sp owner (m.get raw .absoluteL1spOffset) rfl
          (by simp [owner, Address.content, Address.absoluteFor, Address.absoluteL1sp, habs, hd, hl,
            hc])⟩
      · rw [if_neg (by simp [hd]), if_neg (by simp [hl]), if_pos (by simp [hc])]
        exact ⟨_, absolute_readAs .ctrl owner (m.get raw .absoluteCtrlOffset) rfl
          (by simp [owner, Address.content, Address.absoluteFor, Address.absoluteCtrl, habs, hd, hl,
            hc])⟩
    · rw [if_neg (by simp [hd]), if_pos (by simp [hl])]
      exact ⟨_, absolute_readAs .l2sp owner (m.get raw .absoluteL2spOffset) rfl
        (by simp [owner, Address.content, Address.absoluteFor, Address.absoluteL2sp, habs, hd, hl])⟩
  · rw [if_pos (by simp [hd])]
    exact ⟨_, absolute_readAs .dram owner (m.get raw .absoluteDramOffset) rfl
      (by simp [owner, Address.content, Address.absoluteFor, Address.absoluteDram, habs, hd])⟩

/-- Every word is read as some address with a meaning. -/
theorem decode_readAs (raw : UInt64) (issuer : CoreId) :
    ∃ fields, ReadAs m raw issuer (m.decode raw issuer) fields := by
  unfold decode
  rcases flag_get m raw (f := .isAbsolute) (by decide) with habs | habs
  · rw [if_neg (by simp [habs])]
    exact decodeRelative_readAs raw issuer habs
  · rw [if_pos (by simp [habs])]
    exact decodeAbsolute_readAs raw issuer habs

/-- The offset that is read fits the field it was read from. -/
theorem offset_fits {raw : UInt64} {issuer : CoreId} (h : ReadAs m raw issuer a fields)
    (ho : Field.offset? a.mode a.tier = some off) :
    (m.layout.field off).fits a.offset = true := by
  have hm : off ∈ fields := Field.mem_encoding h.encoding ho (by simp)
  rw [← a.content_offset ho, ← h.contents off hm]
  exact Bitfield.fits_get raw

theorem decode_absoluteFor {raw : UInt64} (issuer : CoreId) {tier : Tier} {owner : CoreId}
    {offset : UInt64} (he : Field.encoding? .absolute tier = some fields)
    (hc : ∀ f ∈ fields, m.get raw f = (Address.absoluteFor tier owner offset).content f) :
    m.decode raw issuer = .absoluteFor tier owner offset := by
  cases tier <;> cases he <;>
    simp [Address.content, Address.absoluteFor, Address.absoluteL1sp, Address.absoluteL2sp,
      Address.absoluteDram, Address.absoluteCtrl] at hc <;>
    simp [decode, decodeAbsolute, hc, Address.absoluteFor]

theorem decode_relative {raw : UInt64} (issuer : CoreId) {a : Address}
    (ha : a = ⟨a.tier, .relative, a.offset, none, none, none, a.issuer⟩)
    (he : Field.encoding? .relative a.tier = some fields)
    (hc : ∀ f ∈ fields, m.get raw f = a.content f) :
    m.decode raw issuer = a.withIssuer issuer := by
  obtain ⟨tier, mode, offset, pxn, pod, core, issuer'⟩ := a
  cases ha
  cases tier <;> cases he <;> simp [Address.content] at hc <;>
    simp [decode, decodeRelative, hc] <;> rfl

/-- A word that holds what an address with a meaning says is read as that address, whatever its
other bits are. -/
theorem decode_of_contents {raw : UInt64} (issuer : CoreId) (hw : a.WellFormed)
    (he : Field.encoding? a.mode a.tier = some fields)
    (hc : ∀ f ∈ fields, m.get raw f = a.content f) :
    m.decode raw issuer = a.withIssuer issuer := by
  cases hm : a.mode with
  | absolute =>
    obtain ⟨owner, ha⟩ := Address.exists_absoluteFor hw hm
    rw [hm] at he
    rw [ha] at hc
    rw [decode_absoluteFor issuer he hc, ← ha, Address.withIssuer, Address.isRelative, hm]
    rfl
  | relative =>
    rw [hm] at he
    exact decode_relative issuer (Address.eq_of_relative hw hm) he hc

theorem decode_of_represents {raw : UInt64} (issuer : CoreId) (hw : a.WellFormed)
    (he : Field.encoding? a.mode a.tier = some fields) (hr : m.Represents raw a fields) :
    m.decode raw issuer = a.withIssuer issuer :=
  decode_of_contents issuer hw he hr.contents

/-- Every address with a meaning has an encoding, absolute or relative. -/
theorem exists_fields (hw : a.WellFormed) :
    ∃ fields, Field.encoding? a.mode a.tier = some fields := by
  obtain ⟨hc, _⟩ := hw
  unfold Address.HasCoordinates at hc
  cases hm : a.mode with
  | absolute => cases a.tier <;> exact ⟨_, rfl⟩
  | relative =>
    rw [hm] at hc
    have hr := hc.1
    cases ht : a.tier <;> rw [ht] at hr <;> first | exact ⟨_, rfl⟩ | cases hr

/-- What was encoded is read back. -/
theorem decode_of_encode {raw : UInt64} (hw : a.WellFormed) (h : m.encode a = .ok raw)
    (issuer : CoreId) : m.decode raw issuer = a.withIssuer issuer := by
  obtain ⟨fields, he⟩ := exists_fields hw
  obtain ⟨off, ho⟩ := Field.exists_offset he
  exact decode_of_represents issuer hw he ((encode_eq_ok_iff raw he ho).mp h).2.2

variable (m a) in
/-- How encoding treats an address whose offset belongs into the field `off`. -/
structure EncodesExactly (off : Field) : Prop where
  offset : Field.offset? a.mode a.tier = some off ∧
    m.layout.offsetField a.tier a.mode = .ok (m.layout.field off)
  accepts : (∃ raw, m.encode a = .ok raw) ↔
    m.Inside a ∧ a.offset ≤ (m.layout.field off).mask
  readsAbsolute : ∀ raw, m.encode a = .ok raw → a.mode = .absolute →
    ∀ issuer, m.decode raw issuer = a
  readsRelative : ∀ raw, m.encode a = .ok raw → a.mode = .relative →
    ∀ issuer, m.decode raw issuer = a.withIssuer issuer
  /-- A coordinate outside comes before an offset that does not fit. -/
  refuses : ∀ e, m.encode a = .error e →
    (∃ level value, m.FirstOutside a level value ∧
      e = .coordinateOutOfRange level value (m.topology.count level)) ∨
    (m.Inside a ∧ e = .fieldOverflow off a.offset (m.layout.field off).bits)
  /-- Into whatever word they are put, flags and coordinates fit. -/
  selectors : m.Inside a → ∀ values, assignments a = .ok values →
    ∀ p ∈ values, p.1 ≠ off → ∀ raw, ∃ word, m.put raw p.1 p.2 = .ok word

theorem refused (he : Field.encoding? a.mode a.tier = some fields)
    (ho : Field.offset? a.mode a.tier = some off) {e : AddressError} (h : m.encode a = .error e) :
    (∃ level value, m.FirstOutside a level value ∧
      e = .coordinateOutOfRange level value (m.topology.count level)) ∨
    (m.Inside a ∧ e = .fieldOverflow off a.offset (m.layout.field off).bits) := by
  by_cases hin : m.Inside a
  · right
    cases hfit : (m.layout.field off).fits a.offset with
    | true =>
      obtain ⟨raw, hr, _⟩ := encode_represents hin he ho hfit
      cases hr.symm.trans h
    | false =>
      cases (encode_overflow hin ho hfit).symm.trans h
      exact ⟨hin, rfl⟩
  · left
    obtain ⟨level, value, hf, ho⟩ := encode_outside hin
    cases ho.symm.trans h
    exact ⟨level, value, hf, rfl⟩

theorem selectors_put (hin : m.Inside a) (ho : Field.offset? a.mode a.tier = some off)
    {values : List (Field × UInt64)} (hv : assignments a = .ok values) {p : Field × UInt64}
    (hp : p ∈ values) (hne : p.1 ≠ off) (raw : UInt64) : ∃ word, m.put raw p.1 p.2 = .ok word := by
  cases (assignments_eq ho).symm.trans hv
  obtain ⟨f, hf, rfl⟩ := List.mem_map.mp hp
  rcases List.mem_append.mp hf with hs | hs
  · exact ⟨_, put_of_fits raw (selector_fits hin hs)⟩
  · exact absurd (List.mem_singleton.mp hs) hne

/-- Encoding accepts exactly the addresses inside the machine whose offset fits, loses nothing of
them, and says of any other which part is at fault. -/
theorem encodes_exactly (m : AddressMap) (a : Address) (hw : a.WellFormed) :
    ∃ off, m.EncodesExactly a off := by
  obtain ⟨fields, he⟩ := exists_fields hw
  obtain ⟨off, ho⟩ := Field.exists_offset he
  have hiff := fun raw => encode_eq_ok_iff (m := m) raw he ho
  refine ⟨off, ⟨ho, ?_⟩, ⟨?_, ?_⟩, ?_, ?_, fun e => refused he ho, fun hin values hv p hp hne raw =>
    selectors_put hin ho hv hp hne raw⟩
  · rw [Layout.offsetField, ho]
  · rintro ⟨raw, hr⟩
    obtain ⟨hin, hfit, _⟩ := (hiff raw).mp hr
    exact ⟨hin, (Bitfield.fits_iff_le_mask _).mp hfit⟩
  · rintro ⟨hin, hle⟩
    obtain ⟨raw, hr, _⟩ := encode_represents hin he ho ((Bitfield.fits_iff_le_mask _).mpr hle)
    exact ⟨raw, hr⟩
  · intro raw hr hm issuer
    rw [decode_of_encode hw hr, Address.withIssuer, Address.isRelative, hm]
    rfl
  · intro raw hr _ issuer
    exact decode_of_encode hw hr issuer

/-- The map of a machine none of whose counts is a power of two. -/
def uneven : AddressMap where
  topology := ⟨3, 5, 7⟩
  layout :=
    { pxn := ⟨59, 61, by decide, by decide, by decide⟩
      pod := ⟨56, 59, by decide, by decide, by decide⟩
      core := ⟨53, 56, by decide, by decide, by decide⟩
      dramOffset := ⟨0, 59, by decide, by decide, by decide⟩
      l2spOffset := ⟨0, 56, by decide, by decide, by decide⟩ }
  planned := by rfl

theorem encodes_exactly_last_core :
    (Address.absoluteL1sp 2 4 6 0x1FFFFFFF).WellFormed ∧
      ∃ off, uneven.EncodesExactly (.absoluteL1sp 2 4 6 0x1FFFFFFF) off := by
  have hw : (Address.absoluteL1sp 2 4 6 0x1FFFFFFF).WellFormed :=
    ⟨fun level => by cases level <;> rfl, fun h => by cases h⟩
  exact ⟨hw, encodes_exactly uneven _ hw⟩

end AddressMap

end TieredMemory
