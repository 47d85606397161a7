import Mathlib.Data.List.Pairwise
import Mathlib.Order.Bounds.Basic
import TieredMemory.Layout.Plan
import TieredMemory.Proofs.Bitfield

/-!
# The shape of a planned layout

A planned layout packs the coordinate fields downward from bit 60 and gives the rest to the offset.
From the few equations that say so follow the facts every encoding rests on: the fields of one
encoding do not cross, every coordinate of the machine fits its field, and offsets start at bit 0.
-/
set_option autoImplicit false

namespace TieredMemory

/-- A chain that succeeds has succeeded at its first step. -/
theorem exists_of_bind_eq_ok {ε α β : Type} {f : α → Except ε β} {b : β} :
    ∀ {x : Except ε α}, (x >>= f) = .ok b → ∃ a, x = .ok a ∧ f a = .ok b
  | .ok a, h => ⟨a, rfl, h⟩

theorem idBits_le_iff (count : UInt64) (n : Nat) : idBits count ≤ n ↔ count.toNat ≤ 2 ^ n := by
  unfold idBits
  split
  · have h := Nat.one_le_two_pow (n := n)
    omega
  · have h := Nat.log2_lt (n := count.toNat - 1) (k := n) (by omega)
    omega

theorem count_le_two_pow (count : UInt64) : count.toNat ≤ 2 ^ idBits count :=
  (idBits_le_iff count _).mp (Nat.le_refl _)

/-- The width of a level is the least exponent whose power reaches the count. -/
theorem isLeast_idBits (count : UInt64) : IsLeast {n | count.toNat ≤ 2 ^ n} (idBits count) :=
  ⟨count_le_two_pow count, fun n hn => (idBits_le_iff count n).mpr hn⟩

namespace Layout

/-- The places that planning gives to the fields of a topology. -/
structure Planned (t : Topology) (l : Layout) : Prop where
  inhabited : ∀ level, t.count level ≠ 0
  budget : idBits t.pxns + idBits t.pods + idBits t.cores ≤ 31
  pxn : l.pxn.top = 61 ∧ l.pxn.lo + idBits t.pxns = 61
  pod : l.pod.top = l.pxn.lo ∧ l.pod.lo + idBits t.pods = l.pxn.lo
  core : l.core.top = l.pod.lo ∧ l.core.lo + idBits t.cores = l.pod.lo
  dramOffset : l.dramOffset.top = l.pxn.lo ∧ l.dramOffset.lo = 0
  l2spOffset : l.l2spOffset.top = l.pod.lo ∧ l.l2spOffset.lo = 0

theorem firstEmptyLevel?_eq_none_iff (t : Topology) :
    firstEmptyLevel? t = none ↔ ∀ level, t.count level ≠ 0 := by
  simp only [firstEmptyLevel?, List.find?_eq_none, beq_iff_eq]
  constructor
  · intro h level
    exact h level (by cases level <;> decide)
  · intro h level _
    exact h level

theorem place_of_placeBelow {top width : Nat} {f : Bitfield} (h : placeBelow top width = .ok f) :
    f.top = top ∧ f.lo + width = top := by
  unfold placeBelow Bitfield.below? at h
  split at h
  · next hs =>
    split at hs
    · next hc =>
      obtain ⟨_, _, hw⟩ := hc
      cases hs
      cases h
      exact ⟨rfl, Nat.sub_add_cancel hw⟩
    · cases hs
  · cases h

theorem planned_of_plan {t : Topology} {l : Layout} (h : plan t = .ok l) : Planned t l := by
  unfold plan at h
  cases he : firstEmptyLevel? t with
  | some level => simp [he] at h
  | none =>
    simp only [he] at h
    split at h
    · cases h
    · next hb =>
      obtain ⟨pxn, hx, h⟩ := exists_of_bind_eq_ok h
      obtain ⟨pod, hp, h⟩ := exists_of_bind_eq_ok h
      obtain ⟨core, hc, h⟩ := exists_of_bind_eq_ok h
      obtain ⟨dram, hd, h⟩ := exists_of_bind_eq_ok h
      obtain ⟨l2sp, hl, h⟩ := exists_of_bind_eq_ok h
      obtain ⟨_, _, h⟩ := exists_of_bind_eq_ok h
      cases h
      obtain ⟨hd1, hd2⟩ := place_of_placeBelow hd
      obtain ⟨hl1, hl2⟩ := place_of_placeBelow hl
      exact {
        inhabited := (firstEmptyLevel?_eq_none_iff t).mp he
        budget := Nat.not_lt.mp hb
        pxn := place_of_placeBelow hx
        pod := place_of_placeBelow hp
        core := place_of_placeBelow hc
        dramOffset := ⟨hd1, Nat.add_eq_right.mp hd2⟩
        l2spOffset := ⟨hl1, Nat.add_eq_right.mp hl2⟩ }

namespace Planned

variable {t : Topology} {l : Layout} (h : Planned t l)

include h

/-- No two fields of one encoding cross. -/
theorem pairwise_apart {mode : Mode} {tier : Tier} {fields : List Field}
    (he : Field.encoding? mode tier = some fields) :
    fields.Pairwise fun a b => (l.field a).overlaps (l.field b) = false := by
  have hb := h.budget
  have hx := h.pxn
  have hp := h.pod
  have hc := h.core
  have hd := h.dramOffset
  have hl := h.l2spOffset
  cases mode <;> cases tier <;> cases he <;>
    simp only [List.pairwise_cons, List.mem_cons, List.not_mem_nil, forall_eq_or_imp, or_false,
      forall_eq, Bitfield.overlaps_eq_false_iff, field, Bitfield.span, false_implies,
      implies_true, List.Pairwise.nil, and_true] <;>
    omega

/-- Two different fields of one encoding do not cross. -/
theorem apart {mode : Mode} {tier : Tier} {fields : List Field}
    (he : Field.encoding? mode tier = some fields) {f g : Field} (hf : f ∈ fields)
    (hg : g ∈ fields) (hne : f ≠ g) : (l.field f).overlaps (l.field g) = false :=
  have : Std.Symm fun a b => (l.field a).overlaps (l.field b) = false :=
    ⟨fun _ _ => Bitfield.overlaps_symm⟩
  (h.pairwise_apart he).forall hf hg hne

/-- Every coordinate of the machine fits the field of its level. -/
theorem coordinate_fits {level : Level} {value : UInt64} (hv : value < t.count level) :
    (l.field (.ofLevel level)).fits value = true := by
  rw [Bitfield.fits_iff]
  have hlt : value.toNat < (t.count level).toNat := UInt64.lt_iff_toNat_lt.mp hv
  have hx := h.pxn
  have hp := h.pod
  have hc := h.core
  have hw : (l.field (.ofLevel level)).bits = idBits (t.count level) := by
    cases level <;> simp only [Field.ofLevel, field, Bitfield.bits, Topology.count] <;> omega
  rw [hw]
  exact Nat.lt_of_lt_of_le hlt (count_le_two_pow _)

theorem zero_lt_count (level : Level) : 0 < t.count level :=
  UInt64.pos_iff_ne_zero.mpr (h.inhabited level)

/-- The offset of every encoding starts at bit 0. -/
theorem offset_lo {mode : Mode} {tier : Tier} {f : Field} (hf : Field.offset? mode tier = some f) :
    (l.field f).lo = 0 := by
  have hd := h.dramOffset
  have hl := h.l2spOffset
  cases mode <;> cases tier <;> cases hf <;> simp [field, hd, hl]

end Planned

end Layout

end TieredMemory
