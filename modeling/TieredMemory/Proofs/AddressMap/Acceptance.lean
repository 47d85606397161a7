import TieredMemory.Json.Codec
import TieredMemory.Proofs.AddressMap.Resolution
import TieredMemory.Proofs.AddressMap.Separation

/-!
# Descriptions whose parts do not go together

A description read from data may miss coordinates of its tier or have more than these. Encoding
looks at every coordinate that is given, and then takes the description for the address with the
tier's own coordinates, 0 where one is missing. So a description without a meaning is not refused
for that: it shares the word of the address it is taken for. Only descriptions with a meaning are
told apart.
-/
set_option autoImplicit false

namespace TieredMemory

namespace Address

/-- The address with a meaning that encoding takes a description for. -/
def takenFor (a : Address) : Address :=
  match a.mode with
  | .absolute => absoluteFor a.tier ⟨a.pxn.getD 0, a.pod.getD 0, a.core.getD 0⟩ a.offset
  | .relative => ⟨a.tier, .relative, a.offset, none, none, none, none⟩

variable (a : Address)

@[simp] theorem mode_takenFor : a.takenFor.mode = a.mode := by
  unfold takenFor
  cases hm : a.mode with
  | absolute => exact mode_absoluteFor _ _ _
  | relative => rfl

@[simp] theorem tier_takenFor : a.takenFor.tier = a.tier := by
  unfold takenFor
  cases a.mode with
  | absolute => exact tier_absoluteFor _ _ _
  | relative => rfl

@[simp] theorem offset_takenFor : a.takenFor.offset = a.offset := by
  unfold takenFor
  cases a.mode with
  | absolute => cases a.tier <;> rfl
  | relative => rfl

@[simp] theorem issuer_takenFor : a.takenFor.issuer = none := by
  unfold takenFor
  cases a.mode with
  | absolute => cases a.tier <;> rfl
  | relative => rfl

/-- What is given on the levels of the tier stays, and 0 stands where nothing is given. -/
theorem coordinate_takenFor (level : Level) :
    a.takenFor.coordinate level =
      if a.mode = .absolute ∧ a.tier.carries level = true then some ((a.coordinate level).getD 0)
      else none := by
  unfold takenFor
  cases hm : a.mode with
  | absolute =>
    simp only [coordinate_absoluteFor, true_and]
    cases level <;> rfl
  | relative => cases level <;> rfl

variable {a}

theorem wellFormed_takenFor {off : Field} (ho : Field.offset? a.mode a.tier = some off) :
    a.takenFor.WellFormed := by
  cases hm : a.mode with
  | absolute =>
    unfold takenFor
    rw [hm]
    exact wellFormed_absoluteFor _ _ _
  | relative =>
    rw [hm] at ho
    refine ⟨?_, by simp⟩
    unfold HasCoordinates takenFor
    rw [hm]
    refine ⟨?_, fun level => by cases level <;> rfl⟩
    cases ht : a.tier <;> rw [ht] at ho <;> first | rfl | cases ho

/-- A description with a meaning is taken for what it says. -/
theorem sameWindow_takenFor (h : a.HasCoordinates) : a.takenFor.SameWindow a := by
  refine ⟨mode_takenFor a, tier_takenFor a, fun level => ?_⟩
  rw [coordinate_takenFor]
  unfold HasCoordinates at h
  cases hm : a.mode with
  | absolute =>
    rw [hm] at h
    have hc := h level
    cases hv : a.coordinate level <;> rw [hv] at hc <;> simp [← hc]
  | relative =>
    rw [hm] at h
    simp [h.2 level]

/-- Descriptions are taken for the same address if they differ at most in coordinates that their
tier and mode do not have, in who asks, and in giving 0 or nothing. -/
theorem takenFor_eq_iff {b : Address} :
    a.takenFor = b.takenFor ↔ a.mode = b.mode ∧ a.tier = b.tier ∧ a.offset = b.offset ∧
      (a.mode = .absolute → ∀ level, a.tier.carries level = true →
        (a.coordinate level).getD 0 = (b.coordinate level).getD 0) := by
  constructor
  · intro h
    have hmode : a.mode = b.mode := by simpa using congrArg Address.mode h
    have htier : a.tier = b.tier := by simpa using congrArg Address.tier h
    have hoffset : a.offset = b.offset := by simpa using congrArg Address.offset h
    refine ⟨hmode, htier, hoffset, fun hm level hc => ?_⟩
    have hlevel := congrArg (coordinate · level) h
    simp only [coordinate_takenFor] at hlevel
    rw [if_pos ⟨hm, hc⟩, if_pos ⟨hmode ▸ hm, htier ▸ hc⟩] at hlevel
    exact Option.some.inj hlevel
  · rintro ⟨hmode, htier, hoffset, hlevels⟩
    unfold takenFor
    rw [← hmode, ← htier, ← hoffset]
    cases hm : a.mode with
    | absolute =>
      refine absoluteFor_eq_iff.mpr ⟨rfl, rfl, fun level hc => ?_⟩
      have hlevel := hlevels hm level hc
      cases level <;> exact hlevel
    | relative => rfl

end Address

namespace AddressMap

variable {m : AddressMap} {a b : Address} {raw : UInt64}

theorem assignments_takenFor (a : Address) : assignments a.takenFor = assignments a := by
  obtain ⟨tier, mode, _, _, _, _, _⟩ := a
  cases mode <;> cases tier <;> rfl

theorem inside_takenFor (hin : m.Inside a) : m.Inside a.takenFor := by
  intro level value hv
  rw [Address.coordinate_takenFor] at hv
  split at hv
  · cases hv
    cases hc : a.coordinate level with
    | none => exact m.shape.zero_lt_count level
    | some v => exact hin level v hc
  · cases hv

/-- Once its coordinates have been looked at, a description is treated like the address it is taken
for. -/
theorem encode_takenFor (hin : m.Inside a) : m.encode a.takenFor = m.encode a := by
  simp only [encode, checkCoordinates_of_inside hin,
    checkCoordinates_of_inside (inside_takenFor hin), assignments_takenFor]

theorem exists_offset_of_encode (h : m.encode a = .ok raw) :
    ∃ off, Field.offset? a.mode a.tier = some off := by
  cases ho : Field.offset? a.mode a.tier with
  | some off => exact ⟨off, rfl⟩
  | none =>
    have ha : assignments a = .error (.cannotBeRelative .ctrl) := by
      obtain ⟨tier, mode, _, _, _, _, _⟩ := a
      cases mode <;> cases tier <;> first | rfl | cases ho
    obtain ⟨_, _, h⟩ := exists_of_bind_eq_ok h
    rw [ha] at h
    cases h

/-- Whether a description has a meaning is not asked: its coordinates must be in the machine, its
tier must have the mode, and its offset must fit. -/
theorem exists_encode_iff : (∃ raw, m.encode a = .ok raw) ↔
    m.Inside a ∧ ∃ off, m.layout.offsetField a.tier a.mode = .ok off ∧ a.offset ≤ off.mask := by
  constructor
  · rintro ⟨raw, h⟩
    obtain ⟨off, ho⟩ := exists_offset_of_encode h
    obtain ⟨fields, he⟩ := Field.exists_encoding ho
    obtain ⟨hin, hfit, _⟩ := (encode_eq_ok_iff raw he ho).mp h
    exact ⟨hin, m.layout.field off, by rw [Layout.offsetField, ho],
      (Bitfield.fits_iff_le_mask _).mp hfit⟩
  · rintro ⟨hin, f, hf, hle⟩
    unfold Layout.offsetField at hf
    cases ho : Field.offset? a.mode a.tier with
    | none => simp [ho] at hf
    | some off =>
      simp only [ho, Except.ok.injEq] at hf
      subst hf
      obtain ⟨fields, he⟩ := Field.exists_encoding ho
      obtain ⟨raw, hr, _⟩ := encode_represents hin he ho ((Bitfield.fits_iff_le_mask _).mpr hle)
      exact ⟨raw, hr⟩

/-- The word of a description is that of an address with a meaning. -/
theorem encode_takenFor_of_encode (h : m.encode a = .ok raw) :
    a.takenFor.WellFormed ∧ m.encode a.takenFor = .ok raw := by
  obtain ⟨off, ho⟩ := exists_offset_of_encode h
  obtain ⟨hin, _⟩ := exists_encode_iff.mp ⟨raw, h⟩
  exact ⟨Address.wellFormed_takenFor ho, (encode_takenFor hin).trans h⟩

/-- What the word of a description is read as. -/
theorem decode_eq_takenFor (h : m.encode a = .ok raw) (issuer : CoreId) :
    { m.decode raw issuer with issuer := none } = a.takenFor := by
  obtain ⟨hw, he⟩ := encode_takenFor_of_encode h
  rw [decode_of_encode hw he, Address.withIssuer]
  have hi := Address.issuer_takenFor a
  split <;> rw [← hi]

/-- Encoding accepts a description for its coordinates and its offset, whether or not it has a
meaning, and gives two descriptions the same word exactly if they are taken for the same address; if
both have a meaning, they then differ in nothing that is encoded. -/
theorem accepts_takenFor (m : AddressMap) (a b : Address) :
    ((∃ raw, m.encode a = .ok raw) ↔ m.Inside a ∧
      ∃ off, m.layout.offsetField a.tier a.mode = .ok off ∧ a.offset ≤ off.mask) ∧
    (∀ raw, m.encode a = .ok raw →
      a.takenFor.WellFormed ∧ m.encode a.takenFor = .ok raw ∧
      (m.encode b = .ok raw → a.takenFor = b.takenFor)) ∧
    (m.Inside a → m.Inside b → a.takenFor = b.takenFor → m.encode a = m.encode b) ∧
    (a.HasCoordinates → b.HasCoordinates → ∀ raw, m.encode a = .ok raw → m.encode b = .ok raw →
      a.SameWindow b ∧ a.offset = b.offset) := by
  have hsame : ∀ raw, m.encode a = .ok raw → m.encode b = .ok raw → a.takenFor = b.takenFor :=
    fun raw ha hb => (decode_eq_takenFor ha .first).symm.trans (decode_eq_takenFor hb .first)
  refine ⟨exists_encode_iff, fun raw h => ?_, fun hin hin' h => ?_, fun ha hb raw hra hrb => ?_⟩
  · obtain ⟨hw, he⟩ := encode_takenFor_of_encode h
    exact ⟨hw, he, hsame raw h⟩
  · rw [← encode_takenFor hin, h, encode_takenFor hin']
  · have h := hsame raw hra hrb
    have hsa := Address.sameWindow_takenFor ha
    have hsb := Address.sameWindow_takenFor hb
    rw [← h] at hsb
    exact ⟨⟨hsa.mode.symm.trans hsb.mode, hsa.tier.symm.trans hsb.tier,
      fun level => (hsa.coordinates level).symm.trans (hsb.coordinates level)⟩,
      (Address.takenFor_eq_iff.mp h).2.2.1⟩

/-- A DRAM address without a PXN is read from data and has the word of PXN 0. -/
theorem encodes_without_pxn :
    ∃ a, (Json.read? "[\"dram\",\"absolute\",0,null,null,null,null]").bind Address.ofJson? =
        some a ∧
      ¬ a.HasCoordinates ∧ a ≠ .absoluteDram 0 0 ∧
      uneven.encode a = .ok 0xC000000000000000 ∧
      uneven.encode (.absoluteDram 0 0) = .ok 0xC000000000000000 := by
  refine ⟨⟨.dram, .absolute, 0, none, none, none, none⟩, by decide +kernel, fun h => ?_, by decide,
    rfl, rfl⟩
  cases h .pxn

end AddressMap

end TieredMemory
