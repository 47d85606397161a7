import TieredMemory.Machine.Presets
import TieredMemory.Proofs.Range.Stripes

/-!
# Memories and the regions made of them

A region is not told how many banks it has: the stripe is divided out of the step. As long as one
stripe for every bank is a word, the step is exact and the region has the banks that are described.
Past that the largest word stands for the step. If the stripe happens to divide that word too, the
region is accepted all the same, with the banks that it has room for and without the others.
-/
set_option autoImplicit false

namespace TieredMemory

theorem Region.exists_make_iff {bankSize stripe step : UInt64} :
    (∃ r, make bankSize stripe step = .ok r) ↔ bankSize ≠ 0 ∧ WholeStep stripe step ∧
      bankSize.toNat * (stripedBanks stripe step).toNat < UInt64.size := by
  constructor
  · rintro ⟨r, h⟩
    obtain ⟨rfl, rfl, rfl⟩ := eq_of_make h
    exact ⟨r.bankSize_ne, r.step_whole, r.fits⟩
  · rintro ⟨hsize, hwhole, hfits⟩
    exact ⟨⟨bankSize, stripe, step, hsize, hwhole, hfits⟩,
      by rw [make, dif_neg hsize, dif_pos hwhole, dif_pos hfits]⟩

namespace BankedMemory

variable (b : BankedMemory)

/-- One stripe for every bank is a word. -/
def StepFits : Prop := b.stripe.toNat * b.banks.toNat < UInt64.size

/-- What the banks hold together is no more than the memory has. -/
theorem bankSize_mul_banks_le : b.bankSize.toNat * b.banks.toNat ≤ b.size.toNat := by
  unfold bankSize
  split
  · next hz =>
    rw [hz]
    exact Nat.zero_le _
  · rw [Word.toNat_div]
    exact Nat.div_mul_le_self _ _

theorem toNat_step : b.step.toNat = min (b.stripe.toNat * b.banks.toNat) Word.largest.toNat :=
  Word.toNat_mulSaturating _ _

variable {b}

theorem toNat_step_of_fits (h : b.StepFits) : b.step.toNat = b.stripe.toNat * b.banks.toNat :=
  Word.toNat_mulSaturating_of_lt h

theorem toNat_step_of_not_fits (h : ¬ b.StepFits) : b.step.toNat = Word.largest.toNat := by
  rw [toNat_step, Word.largest_toNat]
  exact Nat.min_eq_right (Nat.le_trans (Nat.sub_le _ _) (Nat.not_lt.mp h))

/-- A stripe that is no larger than a bank is one of a step that fits. -/
theorem stepFits_of_le (h : b.interleave ≤ b.bankSize) : b.StepFits := by
  have hle : b.stripe.toNat ≤ b.bankSize.toNat := by
    unfold stripe
    split
    · exact Nat.le_refl _
    · exact UInt64.le_iff_toNat_le.mp h
  calc b.stripe.toNat * b.banks.toNat
    _ ≤ b.bankSize.toNat * b.banks.toNat := Nat.mul_le_mul_right _ hle
    _ ≤ b.size.toNat := b.bankSize_mul_banks_le
    _ < UInt64.size := Word.lt_size _

section Banked

variable (h : b.bankSize ≠ 0)

include h

theorem banks_ne : b.banks ≠ 0 := fun hz => h (dif_pos hz)

theorem stripe_ne : b.stripe ≠ 0 := by
  unfold stripe
  split
  · exact h
  · assumption

/-- The banks that are divided out of the step. -/
theorem toNat_stripedBanks :
    (stripedBanks b.stripe b.step).toNat = b.step.toNat / b.stripe.toNat := by
  rw [stripedBanks, dif_neg (stripe_ne h), Word.toNat_div]

theorem stripedBanks_le : (stripedBanks b.stripe b.step).toNat ≤ b.banks.toNat := by
  rw [toNat_stripedBanks h]
  refine Nat.div_le_of_le_mul ?_
  rw [toNat_step]
  exact Nat.min_le_left _ _

theorem stripedBanks_of_fits (hfits : b.StepFits) : stripedBanks b.stripe b.step = b.banks := by
  rw [← UInt64.toNat_inj, toNat_stripedBanks h, toNat_step_of_fits hfits,
    Nat.mul_div_cancel_left _ (Word.toNat_pos (stripe_ne h))]

theorem wholeStep_iff :
    WholeStep b.stripe b.step ↔ b.StepFits ∨ b.stripe.toNat ∣ Word.largest.toNat := by
  unfold WholeStep
  rw [dif_neg (stripe_ne h), Word.rem_eq_zero_iff, UInt64.le_iff_toNat_le]
  by_cases hfits : b.StepFits
  · rw [toNat_step_of_fits hfits]
    have hle := Nat.le_mul_of_pos_right b.stripe.toNat (Word.toNat_pos (banks_ne h))
    exact iff_of_true ⟨hle, Nat.dvd_mul_right _ _⟩ (Or.inl hfits)
  · rw [toNat_step_of_not_fits hfits, or_iff_right hfits]
    exact and_iff_right (Nat.le_pred_of_lt (Word.lt_size _))

end Banked

theorem exists_region_iff : (∃ r, b.region = .ok r) ↔
    b.bankSize ≠ 0 ∧ (b.StepFits ∨ b.stripe.toNat ∣ Word.largest.toNat) := by
  rw [region, Region.exists_make_iff]
  constructor
  · rintro ⟨hsize, hwhole, _⟩
    exact ⟨hsize, (wholeStep_iff hsize).mp hwhole⟩
  · rintro ⟨hsize, hstep⟩
    refine ⟨hsize, (wholeStep_iff hsize).mpr hstep, ?_⟩
    calc b.bankSize.toNat * (stripedBanks b.stripe b.step).toNat
      _ ≤ b.bankSize.toNat * b.banks.toNat := Nat.mul_le_mul_left _ (stripedBanks_le hsize)
      _ ≤ b.size.toNat := b.bankSize_mul_banks_le
      _ < UInt64.size := Word.lt_size _

section Accepted

variable {r : Region} (hr : b.region = .ok r)

include hr

theorem bankSize_ne_of_region : b.bankSize ≠ 0 := (exists_region_iff.mp ⟨r, hr⟩).1

theorem toNat_totalSize_of_region : r.totalSize.toNat = b.bankSize.toNat * r.banks.toNat := by
  rw [Region.toNat_totalSize, (Region.eq_of_make hr).1]

theorem banks_eq_of_region : r.banks = stripedBanks b.stripe b.step := by
  obtain ⟨_, hstripe, hstep⟩ := Region.eq_of_make hr
  rw [Region.banks, hstripe, hstep]

theorem banks_of_fits (hfits : b.StepFits) : r.banks = b.banks := by
  rw [banks_eq_of_region hr, stripedBanks_of_fits (bankSize_ne_of_region hr) hfits]

theorem totalSize_of_fits (hfits : b.StepFits) :
    r.totalSize.toNat = b.bankSize.toNat * b.banks.toNat := by
  rw [toNat_totalSize_of_region hr, banks_of_fits hr hfits]

/-- A step that does not fit gives room for as many stripes as the largest word is made of. -/
theorem banks_mul_stripe_of_not_fits (hfits : ¬ b.StepFits) :
    r.banks.toNat * b.stripe.toNat = Word.largest.toNat := by
  obtain ⟨hsize, hstep⟩ := exists_region_iff.mp ⟨r, hr⟩
  rw [banks_eq_of_region hr, toNat_stripedBanks hsize, toNat_step_of_not_fits hfits]
  exact Nat.div_mul_cancel (hstep.resolve_left hfits)

theorem banks_lt_of_not_fits (hfits : ¬ b.StepFits) : r.banks < b.banks := by
  have hmul := banks_mul_stripe_of_not_fits hr hfits
  have hlt : r.banks.toNat * b.stripe.toNat < b.banks.toNat * b.stripe.toNat := by
    rw [hmul, Nat.mul_comm b.banks.toNat]
    exact Nat.lt_of_lt_of_le (Word.lt_size _) (Nat.not_lt.mp hfits)
  exact UInt64.lt_iff_toNat_lt.mpr (Nat.lt_of_mul_lt_mul_right hlt)

end Accepted

variable (b) in
/-- What the description of a memory says about the answer when its region is asked for. -/
structure Describes (answer : Except AddressError Region) : Prop where
  accepted : (∃ r, answer = .ok r) ↔
    b.bankSize ≠ 0 ∧ (b.StepFits ∨ b.stripe.toNat ∣ Word.largest.toNat)
  /-- A step that fits keeps the banks and, but for a remainder, the bytes. -/
  kept : b.StepFits → ∀ r, answer = .ok r → r.banks = b.banks ∧
    r.totalSize.toNat = b.bankSize.toNat * b.banks.toNat ∧ r.totalSize ≤ b.size
  /-- Any other step loses banks, and the bytes that they would hold. -/
  lost : ¬ b.StepFits → ∀ r, answer = .ok r → r.banks < b.banks ∧
    r.banks.toNat * b.stripe.toNat = Word.largest.toNat ∧
    r.totalSize.toNat = b.bankSize.toNat * r.banks.toNat
  fits : b.interleave ≤ b.bankSize → b.StepFits

theorem describes_region (b : BankedMemory) : b.Describes b.region where
  accepted := exists_region_iff
  kept hfits r hr := by
    have htotal := totalSize_of_fits hr hfits
    refine ⟨banks_of_fits hr hfits, htotal, UInt64.le_iff_toNat_le.mpr ?_⟩
    rw [htotal]
    exact b.bankSize_mul_banks_le
  lost hfits r hr := ⟨banks_lt_of_not_fits hr hfits, banks_mul_stripe_of_not_fits hr hfits,
    toNat_totalSize_of_region hr⟩
  fits := stepFits_of_le

end BankedMemory

namespace Machine

/-- The regions of L2SP and DRAM have the banks of the machine's description exactly if one stripe
for every bank is a word; all other regions that are accepted have fewer. -/
theorem regions_keep_banks (machine : Machine) :
    machine.l2sp.Describes (machine.region .l2sp) ∧ machine.dram.Describes (machine.region .dram) :=
  ⟨machine.l2sp.describes_region, machine.dram.describes_region⟩

/-- An L2 scratchpad of four banks of one byte, with stripes of a third of the largest word, is
given a region of three banks. -/
theorem region_loses_bank :
    ∃ r, ({ singleCore with l2sp := ⟨4, 4, 0x5555555555555555⟩ } : Machine).region .l2sp = .ok r ∧
      r.banks = 3 ∧ r.totalSize.toNat = 3 := by
  let b : BankedMemory := ⟨4, 4, 0x5555555555555555⟩
  obtain ⟨r, hr⟩ : ∃ r, b.region = .ok r :=
    BankedMemory.exists_region_iff.mpr ⟨by decide, Or.inr (by decide)⟩
  have hbanks : r.banks = 3 := (BankedMemory.banks_eq_of_region hr).trans (by decide)
  refine ⟨r, hr, hbanks, ?_⟩
  rw [BankedMemory.toNat_totalSize_of_region hr, hbanks]
  decide

end Machine

end TieredMemory
