import TieredMemory.Proofs.Bitfield

/-!
# Laws of reading and writing

A field is a place that holds numbers below a power of two, and the laws are those of any such
place: it gives back what was put in, putting back what it holds changes nothing, and the last of
two writes wins. They hold of every field, the full word and the empty fields among them: an empty
field holds 0 only, and it may stand anywhere, even above the last bit.
-/
set_option autoImplicit false

namespace TieredMemory.Bitfield

open Word (bit)

/-- What is asked of a field, whatever its place and width. -/
structure Lawful (f : Bitfield) : Prop where
  reads : ∀ word, (f.get word).toNat = word.toNat / 2 ^ f.lo % 2 ^ f.bits
  readsWritten : ∀ word value, f.get (f.set word value) = value &&& f.mask
  keepsOthers : ∀ word value i, i ∉ f → bit (f.set word value) i = bit word i
  keepsHeld : ∀ word, f.set word (f.get word) = word
  lastWins : ∀ word first second, f.set (f.set word first) second = f.set word second
  accepts : ∀ word value, (f.set? word value).isSome = true ↔ value ≤ f.mask
  writesAccepted : ∀ word value written, f.set? word value = some written →
    written = f.set word value ∧ f.get written = value
  held : ∀ value : UInt64, value ≤ f.mask ↔ value.toNat < 2 ^ f.bits
  mask : f.mask.toNat = 2 ^ f.bits - 1
  /-- The end is above bit 0, so there is a position below it. -/
  hi : 0 < f.lo + f.bits ∧ f.hi = f.lo + f.bits - 1

variable (f : Bitfield) (word : UInt64)

theorem set_get : f.set word (f.get word) = word := by
  apply Word.eq_of_bit_eq
  intro i
  rw [bit_set]
  split
  · next hi =>
    rw [bit_get, decide_eq_true (sub_lo_lt_bits hi), Nat.add_sub_cancel' hi.1, Bool.true_and]
  · rfl

theorem set_set (first second : UInt64) :
    f.set (f.set word first) second = f.set word second := by
  apply Word.eq_of_bit_eq
  intro i
  simp only [bit_set]
  by_cases hi : i ∈ f
  · rw [if_pos hi, if_pos hi]
  · rw [if_neg hi, if_neg hi, if_neg hi]

theorem isSome_set?_iff (value : UInt64) :
    (f.set? word value).isSome = true ↔ f.fits value = true := by
  rw [set?, Option.isSome_ite]

theorem set?_eq_some_iff {value written : UInt64} :
    f.set? word value = some written ↔ f.fits value = true ∧ written = f.set word value := by
  rw [set?, Option.ite_none_right_eq_some, Option.some.injEq, eq_comm (a := written)]

theorem hi_eq : 0 < f.lo + f.bits ∧ f.hi = f.lo + f.bits - 1 := by
  rw [lo_add_bits]
  exact ⟨f.top_pos, rfl⟩

theorem lawful : f.Lawful where
  reads := toNat_get
  readsWritten := get_set_masked
  keepsOthers word value i hi := by rw [bit_set, if_neg hi]
  keepsHeld := set_get f
  lastWins := set_set f
  accepts word value := by rw [isSome_set?_iff, fits_iff_le_mask]
  writesAccepted word value written h := by
    obtain ⟨hfits, rfl⟩ := (set?_eq_some_iff f word).mp h
    exact ⟨rfl, get_set word value hfits⟩
  held value := by rw [← fits_iff_le_mask, fits_iff]
  mask := toNat_mask
  hi := hi_eq f

theorem below?_top_bits : below? f.top f.bits = some f := by
  have hwidth : f.bits ≤ f.top := Nat.sub_le _ _
  have hlo : f.top - f.bits = f.lo := Nat.sub_sub_self f.lo_le_top
  rw [below?, dif_pos ⟨f.top_pos, f.top_le, hwidth⟩]
  simp only [hlo]

/-- A field of any width may end anywhere in the word, at its very end too, and one without bits
may stand anywhere but at bit 0. -/
theorem exists_field_iff (lo width : Nat) :
    (∃ f : Bitfield, f.lo = lo ∧ f.bits = width) ↔ 0 < lo + width ∧ lo + width ≤ 64 := by
  constructor
  · rintro ⟨f, rfl, rfl⟩
    rw [lo_add_bits]
    exact ⟨f.top_pos, f.top_le⟩
  · rintro ⟨hpos, hle⟩
    exact ⟨⟨lo, lo + width, Nat.le_add_right _ _, hpos, hle⟩, rfl, Nat.add_sub_cancel_left lo width⟩

/-- Every field obeys the laws and is one that can be asked for by its end and width; there is one
for each place and width that end in the word, but for the empty one at bit 0. -/
theorem lawful_at_every_place :
    (∀ f : Bitfield, f.Lawful ∧ below? f.top f.bits = some f) ∧
      ∀ lo width, (∃ f : Bitfield, f.lo = lo ∧ f.bits = width) ↔
        0 < lo + width ∧ lo + width ≤ 64 :=
  ⟨fun f => ⟨lawful f, below?_top_bits f⟩, exists_field_iff⟩

-- The empty field above the last bit.
example : (below? 64 0).map (fun f => (f.get Word.largest, f.set? 42 0, f.set? 42 1)) =
    some (0, some 42, none) := by
  decide

end TieredMemory.Bitfield
