import Mathlib.Algebra.Group.Nat.Defs
import TieredMemory.Word

/-!
# Bits and exact arithmetic of words

A word is told by its bits. A checked step succeeds exactly if the natural result is a word, and
then it is that result: proofs about sizes are carried out on natural numbers and come back here.
-/
set_option autoImplicit false

namespace TieredMemory.Word

/-- Bit `i` of the word; no word has a bit past 63. -/
def bit (w : UInt64) (i : Nat) : Bool := w.toBitVec.getLsbD i

variable (v w : UInt64) (n i : Nat)

theorem eq_of_bit_eq {v w : UInt64} (h : ∀ i, bit v i = bit w i) : v = w :=
  UInt64.toBitVec_inj.mp (BitVec.eq_of_getLsbD_eq fun i _ => h i)

theorem testBit_toNat : w.toNat.testBit i = bit w i := rfl

theorem bit_past {w : UInt64} {i : Nat} (h : 64 ≤ i) : bit w i = false :=
  BitVec.getLsbD_of_ge _ _ h

@[simp] theorem bit_zero : bit 0 i = false := BitVec.getLsbD_zero

@[simp] theorem bit_and : bit (v &&& w) i = (bit v i && bit w i) := by
  simp only [bit, UInt64.toBitVec_and, BitVec.getLsbD_and]

@[simp] theorem bit_or : bit (v ||| w) i = (bit v i || bit w i) := by
  simp only [bit, UInt64.toBitVec_or, BitVec.getLsbD_or]

@[simp] theorem bit_xor : bit (v ^^^ w) i = (bit v i ^^ bit w i) := by
  simp only [bit, UInt64.toBitVec_xor, BitVec.getLsbD_xor]

@[simp] theorem bit_not : bit (~~~w) i = (decide (i < 64) && !bit w i) := by
  simp only [bit, UInt64.toBitVec_not, BitVec.getLsbD_not]

@[simp] theorem bit_shiftLeft :
    bit (shiftLeft w n) i = (decide (i < 64) && decide (n ≤ i) && bit w (i - n)) := by
  simp only [bit, toBitVec_shiftLeft, BitVec.getLsbD_shiftLeft]
  by_cases h : i < n
  · simp [h, Nat.not_le.mpr h]
  · simp [h, Nat.not_lt.mp h]

@[simp] theorem bit_shiftRight : bit (shiftRight w n) i = bit w (n + i) := by
  simp only [bit, toBitVec_shiftRight, BitVec.getLsbD_ushiftRight]

@[simp] theorem bit_largest : bit largest i = decide (i < 64) := by
  have hl : largest.toBitVec = BitVec.allOnes 64 := rfl
  simp only [bit, hl, BitVec.getLsbD_allOnes]

theorem toNat_lt_two_pow_iff : w.toNat < 2 ^ n ↔ ∀ i, n ≤ i → bit w i = false := by
  constructor
  · intro h i hi
    rw [← testBit_toNat]
    exact Nat.testBit_lt_two_pow (Nat.lt_of_lt_of_le h (Nat.pow_le_pow_right (by decide) hi))
  · intro h
    exact Nat.lt_pow_two_of_testBit _ h

/-- Words without a common bit join without a carry. -/
theorem toNat_or_of_apart {v w : UInt64} (h : ∀ i, bit v i = true → bit w i = false) :
    (v ||| w).toNat = v.toNat + w.toNat := by
  have hz : v.toBitVec &&& w.toBitVec = 0#64 := by
    apply BitVec.eq_of_getLsbD_eq
    intro i _
    rw [BitVec.getLsbD_and, BitVec.getLsbD_zero]
    have hi := h i
    simp only [bit] at hi
    cases hv : v.toBitVec.getLsbD i with
    | false => rfl
    | true => simp [hi hv]
  have hadd := BitVec.toNat_add_of_and_eq_zero hz
  rw [BitVec.add_eq_or_of_and_eq_zero _ _ hz] at hadd
  exact hadd

theorem lt_size : w.toNat < UInt64.size := w.toNat_lt

/-- The product in words is the natural one if that is a word. -/
theorem toNat_mul_of_lt {a b : UInt64} (h : a.toNat * b.toNat < UInt64.size) :
    (a * b).toNat = a.toNat * b.toNat := by
  rw [UInt64.toNat_mul]
  exact Nat.mod_eq_of_lt h

theorem mul_eq_ok {a b : UInt64} (h : a.toNat * b.toNat < UInt64.size) : mul a b = .ok (a * b) :=
  if_pos h

theorem sub_eq_ok {a b : UInt64} (h : b.toNat ≤ a.toNat) : sub a b = .ok (a - b) := if_pos h

theorem toNat_sub_of_le {a b : UInt64} (h : b.toNat ≤ a.toNat) :
    (a - b).toNat = a.toNat - b.toNat :=
  UInt64.toNat_sub_of_le a b (UInt64.le_iff_toNat_le.mpr h)

theorem toNat_mulSaturating_of_lt {a b : UInt64} (h : a.toNat * b.toNat < UInt64.size) :
    (mulSaturating a b).toNat = a.toNat * b.toNat := by
  rw [mulSaturating, if_pos h, toNat_mul_of_lt h]

theorem toNat_mulSaturating (a b : UInt64) :
    (mulSaturating a b).toNat = min (a.toNat * b.toNat) largest.toNat := by
  rw [largest_toNat]
  by_cases h : a.toNat * b.toNat < UInt64.size
  · rw [toNat_mulSaturating_of_lt h, Nat.min_eq_left (Nat.le_sub_one_of_lt h)]
  · rw [mulSaturating, if_neg h, largest_toNat,
      Nat.min_eq_right (Nat.le_trans (Nat.sub_le _ _) (Nat.not_lt.mp h))]

theorem toNat_addSaturating_le (a b : UInt64) :
    (addSaturating a b).toNat ≤ a.toNat + b.toNat := by
  unfold addSaturating
  split
  · rw [UInt64.toNat_add]
    exact Nat.mod_le _ _
  · next h => exact Nat.le_trans (Nat.le_of_lt (lt_size largest)) (Nat.not_lt.mp h)

theorem rem_eq_zero_iff {a b : UInt64} (h : b ≠ 0) : rem a b h = 0 ↔ b.toNat ∣ a.toNat := by
  rw [← UInt64.toNat_inj, toNat_rem]
  exact Nat.dvd_iff_mod_eq_zero.symm

theorem toNat_ne_zero {a : UInt64} (h : a ≠ 0) : a.toNat ≠ 0 :=
  fun hz => h (UInt64.toNat_inj.mp hz)

theorem toNat_pos {a : UInt64} (h : a ≠ 0) : 0 < a.toNat := Nat.pos_of_ne_zero (toNat_ne_zero h)

theorem toNat_sub_one {a : UInt64} (h : a ≠ 0) : (a - 1).toNat = a.toNat - 1 :=
  toNat_sub_of_le (toNat_pos h)

theorem sub_one_eq_ok {a : UInt64} (h : a ≠ 0) : sub a 1 = .ok (a - 1) := sub_eq_ok (toNat_pos h)

/-- The last index below a count. -/
theorem sub_one_lt {a : UInt64} (h : a ≠ 0) : a - 1 < a := by
  rw [UInt64.lt_iff_toNat_lt, toNat_sub_one h]
  exact Nat.sub_one_lt (toNat_ne_zero h)

end TieredMemory.Word
