import TieredMemory.Address
import TieredMemory.Topology

/-!
# Owners and their addresses

An absolute address with a meaning is that of an offset for some owner of its tier; the owner is in
the machine if the coordinates that the tier carries are below their counts. A relative address has
no coordinates, and may name the core that it was read for.
-/
set_option autoImplicit false

namespace TieredMemory

/-- The coordinate of a core on a level. -/
def CoreId.place (c : CoreId) : Level → UInt64
  | .pxn => c.pxn
  | .pod => c.pod
  | .core => c.core

/-- The machine has an owner of the tier at the coordinates that the tier carries. -/
def Topology.HasOwner (t : Topology) (tier : Tier) (owner : CoreId) : Prop :=
  ∀ level, tier.carries level = true → owner.place level < t.count level

theorem Topology.hasOwner {t : Topology} {tier : Tier} {owner : CoreId} (hpxn : owner.pxn < t.pxns)
    (hpod : tier.carries .pod = true → owner.pod < t.pods)
    (hcore : tier.carries .core = true → owner.core < t.cores) : t.HasOwner tier owner := by
  intro level h
  cases level with
  | pxn => exact hpxn
  | pod => exact hpod h
  | core => exact hcore h

namespace Address

theorem coordinate_absoluteFor (tier : Tier) (owner : CoreId) (offset : UInt64) (level : Level) :
    (absoluteFor tier owner offset).coordinate level =
      if tier.carries level = true then some (owner.place level) else none := by
  cases tier <;> cases level <;> rfl

@[simp] theorem mode_absoluteFor (tier : Tier) (owner : CoreId) (offset : UInt64) :
    (absoluteFor tier owner offset).mode = .absolute := by
  cases tier <;> rfl

@[simp] theorem tier_absoluteFor (tier : Tier) (owner : CoreId) (offset : UInt64) :
    (absoluteFor tier owner offset).tier = tier := by
  cases tier <;> rfl

@[simp] theorem offset_absoluteFor (tier : Tier) (owner : CoreId) (offset : UInt64) :
    (absoluteFor tier owner offset).offset = offset := by
  cases tier <;> rfl

theorem wellFormed_absoluteFor (tier : Tier) (owner : CoreId) (offset : UInt64) :
    (absoluteFor tier owner offset).WellFormed := by
  constructor
  · unfold HasCoordinates
    rw [mode_absoluteFor]
    intro level
    rw [coordinate_absoluteFor, tier_absoluteFor]
    cases tier.carries level <;> rfl
  · intro h
    cases tier <;> cases h

/-- The byte of a tier, for whichever core asks. -/
def relative (tier : Tier) (offset : UInt64) : Address :=
  ⟨tier, .relative, offset, none, none, none, none⟩

theorem wellFormed_relative {tier : Tier} (h : tier.allowsRelative = true) (offset : UInt64) :
    (relative tier offset).WellFormed :=
  ⟨⟨h, fun level => by cases level <;> rfl⟩, fun hs => by cases hs⟩

variable {a : Address}

/-- An absolute address with a meaning names an owner of its tier. -/
theorem exists_absoluteFor (hw : a.WellFormed) (hm : a.mode = .absolute) :
    ∃ owner, a = .absoluteFor a.tier owner a.offset := by
  obtain ⟨tier, mode, offset, pxn, pod, core, issuer⟩ := a
  obtain ⟨hc, hi⟩ := hw
  cases hm
  have hissuer : issuer = none := by
    cases issuer with
    | none => rfl
    | some c => cases hi rfl
  subst hissuer
  have hpxn := hc .pxn
  have hpod := hc .pod
  have hcore := hc .core
  refine ⟨⟨pxn.getD 0, pod.getD 0, core.getD 0⟩, ?_⟩
  simp only [coordinate] at hpxn hpod hcore
  cases tier <;> cases pxn <;> cases hpxn <;> cases pod <;> cases hpod <;> cases core <;>
    cases hcore <;> rfl

theorem WellFormed.allowsRelative (hw : a.WellFormed) (hm : a.mode = .relative) :
    a.tier.allowsRelative = true := by
  have hcoordinates := hw.coordinates
  rw [HasCoordinates, hm] at hcoordinates
  exact hcoordinates.1

/-- A relative address with a meaning has its tier, its offset and perhaps an issuer. -/
theorem eq_of_relative (hw : a.WellFormed) (hm : a.mode = .relative) :
    a = ⟨a.tier, .relative, a.offset, none, none, none, a.issuer⟩ := by
  obtain ⟨tier, mode, offset, pxn, pod, core, issuer⟩ := a
  obtain ⟨hc, _⟩ := hw
  cases hm
  have hpxn := hc.2 .pxn
  have hpod := hc.2 .pod
  have hcore := hc.2 .core
  simp only [coordinate] at hpxn hpod hcore
  rw [hpxn, hpod, hcore]

end Address

end TieredMemory
