import TieredMemory.Machine.Validation
import TieredMemory.Proofs.Bitfield
import TieredMemory.Proofs.Machine.Regions

/-!
# What the size checks guarantee

A memory that passes them has a region: its banks are the ones described, they end where stripes
end, together they are the whole memory, and every offset in it fits the offset field of the tier.
-/
set_option autoImplicit false

namespace TieredMemory

open Machine (window)

/-- Even banks of whole stripes that lie in a window. -/
structure BankedMemory.Even (b : BankedMemory) (limit : UInt64) : Prop where
  size : b.size ≠ 0
  banks : b.banks ≠ 0
  split : b.banks.toNat ∣ b.size.toNat
  stripes : b.interleave ≠ 0 → b.interleave.toNat ∣ b.bankSize.toNat
  window : b.size ≤ limit

namespace BankedMemory.Even

variable {b : BankedMemory} {limit : UInt64} (h : b.Even limit)

include h

theorem toNat_bankSize : b.bankSize.toNat * b.banks.toNat = b.size.toNat := by
  rw [bankSize, dif_neg h.banks, Word.toNat_div, Nat.div_mul_cancel h.split]

theorem bankSize_ne : b.bankSize ≠ 0 := by
  intro hz
  have hs := h.toNat_bankSize
  rw [hz] at hs
  exact Word.toNat_ne_zero h.size (by simpa using hs.symm)

theorem stripe_dvd : b.stripe.toNat ∣ b.bankSize.toNat := by
  unfold stripe
  split
  · exact Nat.dvd_refl _
  · next hi => exact h.stripes hi

/-- One stripe of every bank lies in the memory. -/
theorem stepFits : b.StepFits := by
  refine stepFits_of_le ?_
  by_cases hi : b.interleave = 0
  · rw [hi]
    exact UInt64.zero_le
  · exact UInt64.le_iff_toNat_le.mpr (Nat.le_of_dvd (Word.toNat_pos h.bankSize_ne) (h.stripes hi))

/-- Such a memory has a region, with the banks and bytes that were described. -/
theorem exists_region : ∃ r, b.region = .ok r ∧ r.stripe = b.stripe ∧ r.banks = b.banks ∧
    r.totalSize = b.size ∧ r.WholeStripes := by
  obtain ⟨r, hr⟩ := exists_region_iff.mpr ⟨h.bankSize_ne, Or.inl h.stepFits⟩
  obtain ⟨hsize, hstripe, _⟩ := Region.eq_of_make hr
  refine ⟨r, hr, hstripe, banks_of_fits hr h.stepFits, ?_, Or.inr ?_⟩
  · rw [← UInt64.toNat_inj, totalSize_of_fits hr h.stepFits, h.toNat_bankSize]
  · rw [hstripe, hsize]
    exact h.stripe_dvd

end BankedMemory.Even

/-- A single bank has a region of its size. -/
theorem Region.exists_unstriped {size : UInt64} (h : size ≠ 0) :
    ∃ r, Region.unstriped size = .ok r ∧ r.stripe = 0 ∧ r.banks = 1 ∧ r.totalSize = size := by
  have hfits : size.toNat * (stripedBanks 0 0).toNat < UInt64.size := by
    rw [stripedBanks, dif_pos rfl]
    exact (Nat.mul_one _).symm ▸ Word.lt_size size
  refine ⟨⟨size, 0, 0, h, by decide, hfits⟩, ?_, rfl, rfl, ?_⟩
  · rw [unstriped, make, dif_neg h, dif_pos (by decide), dif_pos hfits]
  · exact UInt64.mul_one size

namespace Machine

theorem offset_fits_of_lt_window {l : Layout} {tier : Tier} {off : Field} {offset : UInt64}
    (ho : Field.offset? .absolute tier = some off) (h : offset < window l tier .absolute) :
    (l.field off).fits offset = true := by
  rw [window, Layout.windowSize, Layout.offsetField, ho] at h
  have hlt := UInt64.lt_iff_toNat_lt.mp h
  have hle := Word.toNat_addSaturating_le (l.field off).mask 1
  rw [Bitfield.fits_iff_le_mask, UInt64.le_iff_toNat_le]
  exact Nat.lt_succ_iff.mp (Nat.lt_of_lt_of_le hlt hle)

/-- No error among the findings of a core's memory means that it has bytes and fits. -/
theorem size_of_checkCoreMemory {l : Layout} {tier : Tier} {size : UInt64}
    (h : ∀ f ∈ checkCoreMemory l tier size, f.isError = false) :
    size ≠ 0 ∧ size ≤ window l .l1sp .absolute := by
  unfold checkCoreMemory at h
  dsimp only at h
  split at h
  · cases h _ List.mem_cons_self
  · next hz =>
    split at h
    · cases h _ List.mem_cons_self
    · next hw => exact ⟨hz, UInt64.not_lt.mp hw⟩

theorem even_of_checkBanked {l : Layout} {tier : Tier} {b : BankedMemory}
    (h : ∀ f ∈ checkBanked l tier b, f.isError = false) : b.Even (window l tier .absolute) := by
  unfold checkBanked at h
  split at h
  · cases h _ List.mem_cons_self
  · next hz =>
    split at h
    · cases h _ List.mem_cons_self
    · next hb =>
      simp only [List.forall_mem_append] at h
      obtain ⟨⟨⟨hsplit, hstripes⟩, hwindow⟩, _⟩ := h
      refine ⟨hz, hb, ?_, ?_, ?_⟩
      · split at hsplit
        · cases hsplit _ List.mem_cons_self
        · next hr => exact (Word.rem_eq_zero_iff hb).mp (Decidable.not_not.mp hr)
      · intro hi
        rw [dif_neg hi] at hstripes
        split at hstripes
        · cases hstripes _ List.mem_cons_self
        · next hr => exact (Word.rem_eq_zero_iff hi).mp (Decidable.not_not.mp hr)
      · split at hwindow
        · cases hwindow _ List.mem_cons_self
        · next hw => exact UInt64.not_lt.mp hw

/-- The banks that one owner of the tier has. -/
def bankCount (machine : Machine) : Tier → UInt64
  | .l1sp | .ctrl => 1
  | .l2sp => machine.l2sp.banks
  | .dram => machine.dram.banks

/-- The bank that the machine's description gives an offset to: stripes go round the banks. -/
def bankAt (machine : Machine) (tier : Tier) (offset : Nat) : Nat :=
  match tier with
  | .l1sp | .ctrl => 0
  | .l2sp => offset / machine.l2sp.stripe.toNat % machine.l2sp.banks.toNat
  | .dram => offset / machine.dram.stripe.toNat % machine.dram.banks.toNat

/-- The region of a tier is the memory that is described, in the window of the tier. -/
structure Serves (machine : Machine) (l : Layout) (tier : Tier) (r : Region) : Prop where
  region : machine.region tier = .ok r
  whole : r.WholeStripes
  banks : r.banks = machine.bankCount tier
  totalSize : r.totalSize = machine.tierSize tier
  turn : ∀ offset, r.turn offset = machine.bankAt tier offset
  window : machine.tierSize tier ≤ window l tier .absolute

variable {machine : Machine} {l : Layout}

/-- Without an error among the findings about sizes, every tier has the region described. -/
theorem exists_serves (h : ∀ f ∈ machine.checkSizes l, f.isError = false) (tier : Tier) :
    ∃ r, machine.Serves l tier r := by
  simp only [checkSizes, List.forall_mem_append] at h
  obtain ⟨⟨⟨hl1sp, hctrl⟩, hl2sp⟩, hdram⟩ := h
  cases tier with
  | l1sp =>
    obtain ⟨hz, hw⟩ := size_of_checkCoreMemory hl1sp
    obtain ⟨r, hr, hs, hb, ht⟩ := Region.exists_unstriped hz
    exact ⟨r, hr, Or.inl hs, hb, ht, fun _ => if_pos hs, hw⟩
  | ctrl =>
    obtain ⟨hz, hw⟩ := size_of_checkCoreMemory hctrl
    obtain ⟨r, hr, hs, hb, ht⟩ := Region.exists_unstriped hz
    exact ⟨r, hr, Or.inl hs, hb, ht, fun _ => if_pos hs, hw⟩
  | l2sp =>
    have he := even_of_checkBanked hl2sp
    obtain ⟨r, hr, hs, hb, ht, hw⟩ := he.exists_region
    refine ⟨r, hr, hw, hb, ht, fun offset => ?_, he.window⟩
    rw [Region.turn, hs, if_neg (BankedMemory.stripe_ne he.bankSize_ne), hb, bankAt]
  | dram =>
    have he := even_of_checkBanked hdram
    obtain ⟨r, hr, hs, hb, ht, hw⟩ := he.exists_region
    refine ⟨r, hr, hw, hb, ht, fun offset => ?_, he.window⟩
    rw [Region.turn, hs, if_neg (BankedMemory.stripe_ne he.bankSize_ne), hb, bankAt]

end Machine

end TieredMemory
