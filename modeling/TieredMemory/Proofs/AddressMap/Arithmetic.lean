import Mathlib.Algebra.GroupWithZero.Nat
import TieredMemory.Proofs.AddressMap.RoundTrip

/-!
# The word of an address as a number

A field that is written over zeros adds its value at its place, so the word that encoding builds is
the sum of what is written, without a carry from one field into the next. With the places that
planning gives to the fields this is plain arithmetic: flags at fixed powers of two, coordinates
packed downward from bit 60, and the offset.
-/
set_option autoImplicit false

namespace TieredMemory

/-- The number of an address in a machine whose levels take `p`, `o` and `c` bits. -/
def Address.number (p o c : Nat) (a : Address) : Nat :=
  let pxn := (a.pxn.getD 0).toNat * 2 ^ (61 - p)
  let pod := (a.pod.getD 0).toNat * 2 ^ (61 - p - o)
  let core := (a.core.getD 0).toNat * 2 ^ (61 - p - o - c)
  match a.mode, a.tier with
  | .absolute, .dram => 2 ^ 63 + 2 ^ 62 + pxn + a.offset.toNat
  | .absolute, .l2sp => 2 ^ 63 + 2 ^ 61 + pxn + pod + a.offset.toNat
  | .absolute, .l1sp => 2 ^ 63 + pxn + pod + core + a.offset.toNat
  | .absolute, .ctrl => 2 ^ 63 + 2 ^ 29 + pxn + pod + core + a.offset.toNat
  | .relative, .dram => 2 ^ 30 + a.offset.toNat
  | .relative, .l2sp => 2 ^ 29 + a.offset.toNat
  | .relative, .l1sp | .relative, .ctrl => a.offset.toNat

namespace AddressMap

variable {m : AddressMap} {a : Address} {raw : UInt64}

/-- Values written into clear fields that do not cross add up. -/
theorem toNat_written {values : List (Field × UInt64)}
    (hfits : ∀ p ∈ values, (m.layout.field p.1).fits p.2 = true)
    (hclear : ∀ p ∈ values, m.get raw p.1 = 0)
    (happart : values.Pairwise fun p q =>
      (m.layout.field p.1).overlaps (m.layout.field q.1) = false) :
    (m.written raw values).toNat =
      raw.toNat + (values.map fun p => p.2.toNat * 2 ^ (m.layout.field p.1).lo).sum := by
  induction values generalizing raw with
  | nil => rfl
  | cons p values ih =>
    obtain ⟨hp, happart⟩ := List.pairwise_cons.mp happart
    have hset := Bitfield.toNat_set_of_get_eq_zero (hclear p List.mem_cons_self)
      (hfits p List.mem_cons_self)
    -- the fields that follow are still clear
    have hrest : ∀ q ∈ values, m.get ((m.layout.field p.1).set raw p.2) q.1 = 0 := by
      intro q hq
      rw [get, Bitfield.get_set_of_apart _ _ (Bitfield.overlaps_symm (hp q hq))]
      exact hclear q (List.mem_cons_of_mem _ hq)
    have hsum := ih (fun q hq => hfits q (List.mem_cons_of_mem _ hq)) hrest happart
    rw [List.map_cons, List.sum_cons, ← Nat.add_assoc, ← hset]
    exact hsum

/-- An encoded word is the sum of what is written. -/
theorem toNat_of_encode {fields : List Field} {off : Field}
    (he : Field.encoding? a.mode a.tier = some fields)
    (ho : Field.offset? a.mode a.tier = some off) (h : m.encode a = .ok raw) :
    raw.toNat = ((toWrite a off).map fun p => p.2.toNat * 2 ^ (m.layout.field p.1).lo).sum := by
  obtain ⟨hin, hfit, hr⟩ := (encode_eq_ok_iff raw he ho).mp h
  rw [represents_unique hr (represents_written hin he ho hfit),
    toNat_written (toWrite_fits hin ho hfit) (fun p _ => Bitfield.get_zero)
      (toWrite_apart m he ho)]
  exact Nat.zero_add _

/-- The lowest bits of the coordinate fields. -/
theorem lo_of_shape (m : AddressMap) :
    m.layout.pxn.lo = 61 - idBits m.topology.pxns ∧
      m.layout.pod.lo = 61 - idBits m.topology.pxns - idBits m.topology.pods ∧
      m.layout.core.lo = 61 - idBits m.topology.pxns - idBits m.topology.pods -
        idBits m.topology.cores := by
  have hx := m.shape.pxn
  have hp := m.shape.pod
  have hc := m.shape.core
  omega

/-- Encoding builds the number of the address, where each level takes the fewest bits that reach its
count. -/
theorem toNat_encode (m : AddressMap) {p o c : Nat}
    (hp : IsLeast {n | m.topology.pxns.toNat ≤ 2 ^ n} p)
    (ho : IsLeast {n | m.topology.pods.toNat ≤ 2 ^ n} o)
    (hc : IsLeast {n | m.topology.cores.toNat ≤ 2 ^ n} c) {a : Address} (hw : a.WellFormed)
    {raw : UInt64} (h : m.encode a = .ok raw) : raw.toNat = a.number p o c := by
  obtain rfl := hp.unique (isLeast_idBits _)
  obtain rfl := ho.unique (isLeast_idBits _)
  obtain rfl := hc.unique (isLeast_idBits _)
  obtain ⟨fields, he⟩ := exists_fields hw
  obtain ⟨off, hoff⟩ := Field.exists_offset he
  obtain ⟨hx, hp, hc⟩ := m.lo_of_shape
  have hdram := m.shape.dramOffset.2
  have hl2sp := m.shape.l2spOffset.2
  rw [toNat_of_encode he hoff h, toWrite_eq hoff]
  obtain ⟨tier, mode, offset, pxn, pod, core, issuer⟩ := a
  cases mode <;> cases tier <;> cases hoff <;>
    simp only [Field.selectors, Address.content, Address.number, List.map_append, List.map_cons,
      List.map_nil, List.sum_append, List.sum_cons, List.sum_nil, Layout.field, Bitfield.span_lo,
      hx, hp, hc, hdram, hl2sp, ↓reduceIte, UInt64.toNat_one, Nat.one_mul, Nat.pow_zero,
      Nat.mul_one, Nat.add_zero, Nat.zero_add, Nat.add_assoc]

/-- The last byte of the last core's control window: `2 * 2 ^ 59`, `4 * 2 ^ 56`, `6 * 2 ^ 53`, and
all bits below 30. -/
theorem toNat_encode_last_core :
    IsLeast {n | uneven.topology.pxns.toNat ≤ 2 ^ n} 2 ∧
      IsLeast {n | uneven.topology.pods.toNat ≤ 2 ^ n} 3 ∧
      IsLeast {n | uneven.topology.cores.toNat ≤ 2 ^ n} 3 ∧
      (Address.absoluteCtrl 2 4 6 0x1FFFFFFF).WellFormed ∧
      uneven.encode (.absoluteCtrl 2 4 6 0x1FFFFFFF) = .ok 0x94C000003FFFFFFF ∧
      (0x94C000003FFFFFFF : UInt64).toNat =
        (Address.absoluteCtrl 2 4 6 0x1FFFFFFF).number 2 3 3 := by
  have hw : (Address.absoluteCtrl 2 4 6 0x1FFFFFFF).WellFormed :=
    Address.wellFormed_absoluteFor .ctrl ⟨2, 4, 6⟩ 0x1FFFFFFF
  have hp : IsLeast {n | uneven.topology.pxns.toNat ≤ 2 ^ n} 2 := isLeast_idBits 3
  have ho : IsLeast {n | uneven.topology.pods.toNat ≤ 2 ^ n} 3 := isLeast_idBits 5
  have hc : IsLeast {n | uneven.topology.cores.toNat ≤ 2 ^ n} 3 := isLeast_idBits 7
  exact ⟨hp, ho, hc, hw, rfl, toNat_encode uneven hp ho hc hw rfl⟩

end AddressMap

end TieredMemory
