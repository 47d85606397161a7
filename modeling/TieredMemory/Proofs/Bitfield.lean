import TieredMemory.Bitfield
import TieredMemory.Proofs.Word

/-!
# Reading and writing bit ranges

A field has the positions from `lo` up to `top`. Reading moves them to the bottom; writing changes
them and no others. Fields whose intervals do not cross are independent of each other, and a value
written over zeros is added at its place.
-/
set_option autoImplicit false

namespace TieredMemory.Bitfield

open Word (bit)

/-- A field as the set of its bit positions. -/
instance : Membership Nat Bitfield := ⟨fun f i => f.lo ≤ i ∧ i < f.top⟩

variable {f g : Bitfield} (word value : UInt64) {i : Nat}

theorem mem_iff : i ∈ f ↔ f.lo ≤ i ∧ i < f.top := Iff.rfl

instance : Decidable (i ∈ f) := decidable_of_iff _ mem_iff.symm

theorem bits_le (f : Bitfield) : f.bits ≤ 64 := by
  have h := f.top_le
  unfold bits
  omega

theorem lo_add_bits (f : Bitfield) : f.lo + f.bits = f.top := Nat.add_sub_cancel' f.lo_le_top

/-- Counted from the bottom of the field, its positions are those below its width. -/
theorem lo_add_mem_iff : f.lo + i ∈ f ↔ i < f.bits := by
  have htop := lo_add_bits f
  rw [mem_iff]
  omega

theorem sub_lo_lt_bits (h : i ∈ f) : i - f.lo < f.bits := by
  rwa [← lo_add_mem_iff, Nat.add_sub_cancel' h.1]

theorem overlaps_eq_false_iff : f.overlaps g = false ↔ g.top ≤ f.lo ∨ f.top ≤ g.lo := by
  simp only [overlaps, Bool.and_eq_false_iff, decide_eq_false_iff_not, Nat.not_lt]

theorem overlaps_comm (f g : Bitfield) : f.overlaps g = g.overlaps f := Bool.and_comm _ _

theorem overlaps_symm (h : f.overlaps g = false) : g.overlaps f = false :=
  (overlaps_comm g f).trans h

theorem not_mem_of_apart (h : f.overlaps g = false) (hi : i ∈ f) : i ∉ g := by
  rw [overlaps_eq_false_iff] at h
  rw [mem_iff] at hi ⊢
  omega

theorem bit_mask : bit f.mask i = decide (i < f.bits) := by
  have h := bits_le f
  simp only [mask, Word.bit_shiftRight, Word.bit_largest, decide_eq_decide]
  omega

theorem toNat_mask : f.mask.toNat = 2 ^ f.bits - 1 := by
  apply Nat.eq_of_testBit_eq
  intro i
  rw [Word.testBit_toNat, bit_mask, Nat.testBit_two_pow_sub_one]

theorem fits_iff : f.fits value = true ↔ value.toNat < 2 ^ f.bits := by
  rw [fits, beq_iff_eq, Word.toNat_lt_two_pow_iff]
  constructor
  · intro h i hi
    by_cases hw : i < 64
    · have hb := congrArg (bit · i) h
      simpa [bit_mask, Nat.not_lt.mpr hi, hw] using hb
    · exact Word.bit_past (Nat.not_lt.mp hw)
  · intro h
    apply Word.eq_of_bit_eq
    intro i
    by_cases hi : i < f.bits
    · simp [bit_mask, hi]
    · simp [h i (Nat.not_lt.mp hi)]

theorem fits_iff_le_mask : f.fits value = true ↔ value ≤ f.mask := by
  have hp := Nat.two_pow_pos f.bits
  rw [fits_iff, UInt64.le_iff_toNat_le, toNat_mask]
  omega

theorem bit_get : bit (f.get word) i = (decide (i < f.bits) && bit word (f.lo + i)) := by
  simp only [get, Word.bit_and, Word.bit_shiftRight, bit_mask, Bool.and_comm]

theorem toNat_get : (f.get word).toNat = word.toNat / 2 ^ f.lo % 2 ^ f.bits := by
  apply Nat.eq_of_testBit_eq
  intro i
  rw [Word.testBit_toNat, bit_get, Nat.testBit_mod_two_pow, Nat.testBit_div_two_pow,
    Word.testBit_toNat, Nat.add_comm]

/-- Reading gives no more than the field holds. -/
theorem fits_get : f.fits (f.get word) = true := by
  rw [fits_iff, Word.toNat_lt_two_pow_iff]
  intro i hi
  simp [bit_get, Nat.not_lt.mpr hi]

theorem bit_placed_mask : bit (Word.shiftLeft f.mask f.lo) i = decide (i ∈ f) := by
  have ht := f.top_le
  rw [Bool.eq_iff_iff]
  simp only [Word.bit_shiftLeft, bit_mask, Bool.and_eq_true, decide_eq_true_eq, mem_iff]
  unfold bits
  omega

theorem bit_placed_value :
    bit (Word.shiftLeft (value &&& f.mask) f.lo) i =
      (decide (i ∈ f) && bit value (i - f.lo)) := by
  rw [← bit_placed_mask, Word.bit_shiftLeft, Word.bit_shiftLeft, Word.bit_and]
  cases bit value (i - f.lo) <;> simp

/-- Writing changes the positions of the field and no others. -/
theorem bit_set :
    bit (f.set word value) i = if i ∈ f then bit value (i - f.lo) else bit word i := by
  rw [set, Word.bit_or, Word.bit_and, Word.bit_not, bit_placed_mask, bit_placed_value]
  by_cases h : i ∈ f
  · simp [h]
  · by_cases hi : i < 64
    · simp [h, hi]
    · simp [h, Word.bit_past (Nat.not_lt.mp hi)]

/-- What was written is read back, less the bits above the width. -/
theorem get_set_masked : f.get (f.set word value) = value &&& f.mask := by
  apply Word.eq_of_bit_eq
  intro i
  rw [bit_get, bit_set, Word.bit_and, bit_mask]
  by_cases hi : i < f.bits
  · simp [hi, lo_add_mem_iff.mpr hi]
  · simp [hi]

theorem and_mask_of_fits (h : f.fits value = true) : value &&& f.mask = value := by
  apply Word.eq_of_bit_eq
  intro i
  rw [Word.bit_and, bit_mask]
  by_cases hi : i < f.bits
  · simp [hi]
  · have hz := (Word.toNat_lt_two_pow_iff value f.bits).mp ((fits_iff value).mp h) i
      (Nat.not_lt.mp hi)
    simp [hz]

/-- What was written is read back. -/
theorem get_set (h : f.fits value = true) : f.get (f.set word value) = value :=
  (get_set_masked word value).trans (and_mask_of_fits value h)

theorem get_zero : f.get 0 = 0 := by
  apply Word.eq_of_bit_eq
  intro i
  simp [bit_get]

theorem isEmpty_iff : f.isEmpty = true ↔ f.bits = 0 := by
  have hle := f.lo_le_top
  rw [isEmpty, bits, beq_iff_eq]
  omega

/-- Only a field without bits reads 0 from every word. -/
theorem isEmpty_iff_get_eq_zero : f.isEmpty = true ↔ ∀ word, f.get word = 0 := by
  rw [isEmpty_iff]
  constructor
  · intro h word
    apply Word.eq_of_bit_eq
    intro i
    simp [bit_get, h]
  · intro h
    refine Nat.eq_zero_of_not_pos fun hpos => ?_
    have hlo : f.lo < 64 := by
      have htop := f.top_le
      rw [bits] at hpos
      omega
    have hbit := congrArg (bit · 0) (h Word.largest)
    simp [bit_get, hlo, hpos] at hbit

/-- Two words read the same through a field if they agree on its positions. -/
theorem get_eq_iff {v w : UInt64} : f.get v = f.get w ↔ ∀ i ∈ f, bit v i = bit w i := by
  constructor
  · intro h i hi
    have hlo := hi.1
    have hb := congrArg (bit · (i - f.lo)) h
    have hlt := sub_lo_lt_bits hi
    simpa [bit_get, hlt, Nat.add_sub_cancel' hlo] using hb
  · intro h
    apply Word.eq_of_bit_eq
    intro i
    rw [bit_get, bit_get]
    by_cases hi : i < f.bits
    · rw [h (f.lo + i) (lo_add_mem_iff.mpr hi)]
    · simp [hi]

/-- Writing one field does not change what another one reads. -/
theorem get_set_of_apart (h : f.overlaps g = false) : f.get (g.set word value) = f.get word := by
  refine get_eq_iff.mpr fun i hi => ?_
  rw [bit_set, if_neg (not_mem_of_apart h hi)]

theorem bit_eq_false_of_get_eq_zero {word : UInt64} (hz : f.get word = 0) (hi : i ∈ f) :
    bit word i = false := by
  rw [get_eq_iff.mp (hz.trans get_zero.symm) i hi, Word.bit_zero]

/-- A value that fits stays within the field when it is moved to its place. -/
theorem bit_shiftLeft_of_fits {value : UInt64} (h : f.fits value = true) :
    bit (Word.shiftLeft value f.lo) i = (decide (i ∈ f) && bit value (i - f.lo)) := by
  rw [← bit_placed_value, and_mask_of_fits value h]

theorem toNat_shiftLeft_of_fits {value : UInt64} (h : f.fits value = true) :
    (Word.shiftLeft value f.lo).toNat = value.toNat * 2 ^ f.lo := by
  have hlt : value.toNat * 2 ^ f.lo < 2 ^ 64 := by
    calc value.toNat * 2 ^ f.lo
      _ < 2 ^ f.bits * 2 ^ f.lo :=
        Nat.mul_lt_mul_of_pos_right ((fits_iff value).mp h) (Nat.two_pow_pos _)
      _ = 2 ^ f.top := by rw [← Nat.pow_add, Nat.add_comm, lo_add_bits]
      _ ≤ 2 ^ 64 := Nat.pow_le_pow_right (by decide) f.top_le
  rw [← UInt64.toNat_toBitVec (Word.shiftLeft value f.lo), Word.toBitVec_shiftLeft,
    BitVec.toNat_shiftLeft, Nat.shiftLeft_eq, UInt64.toNat_toBitVec, Nat.mod_eq_of_lt hlt]

/-- Over zeros a value is added at the place of the field. -/
theorem toNat_set_of_get_eq_zero {word value : UInt64} (hz : f.get word = 0)
    (hf : f.fits value = true) :
    (f.set word value).toNat = word.toNat + value.toNat * 2 ^ f.lo := by
  have hs : f.set word value = word ||| Word.shiftLeft value f.lo := by
    apply Word.eq_of_bit_eq
    intro i
    rw [bit_set, Word.bit_or, bit_shiftLeft_of_fits hf]
    by_cases hi : i ∈ f
    · simp [hi, bit_eq_false_of_get_eq_zero hz hi]
    · simp [hi]
  have happart : ∀ i, bit word i = true → bit (Word.shiftLeft value f.lo) i = false := by
    intro i hi
    have hout : i ∉ f := fun hm => by simp [bit_eq_false_of_get_eq_zero hz hm] at hi
    rw [bit_shiftLeft_of_fits hf, decide_eq_false hout, Bool.false_and]
  rw [hs, Word.toNat_or_of_apart happart, toNat_shiftLeft_of_fits hf]

end TieredMemory.Bitfield
