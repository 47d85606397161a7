import TieredMemory.Proofs.Bitfield

/-!
# Fields that get in each other's way

Two fields are independent if neither reads what is written into the other and the order of writes
does not matter; that is so exactly if they have no position in common. `overlaps` compares
intervals. It misses no common position, but it also counts an empty field strictly inside another
one, although an empty field has no position and is independent of everything.
-/
set_option autoImplicit false

namespace TieredMemory.Bitfield

open Word (bit)

variable (f g : Bitfield)

/-- What is done to one field leaves the other alone, and the order of writes does not matter. -/
structure Independent : Prop where
  keepsSecond : ∀ word value, g.get (f.set word value) = g.get word
  keepsFirst : ∀ word value, f.get (g.set word value) = f.get word
  commute : ∀ word value value',
    f.set (g.set word value') value = g.set (f.set word value) value'

/-- Some position belongs to both. -/
def Meets : Prop := ∃ i, i ∈ f ∧ i ∈ g

/-- The field has no positions, and the place where it would begin is not the first of the other's
nor behind the last. -/
structure EmptyWithin : Prop where
  empty : f.isEmpty = true
  above : g.lo < f.lo
  below : f.lo < g.top

variable {f g}

theorem lo_eq_top (h : f.isEmpty = true) : f.lo = f.top := (beq_iff_eq.mp h).symm

theorem not_mem_of_isEmpty (h : f.isEmpty = true) (i : Nat) : i ∉ f := by
  have heq := lo_eq_top h
  rw [mem_iff]
  omega

/-- Writing one field does not change what a field without common positions reads. -/
theorem get_set_of_not_meets (h : ¬ f.Meets g) (word value : UInt64) :
    g.get (f.set word value) = g.get word := by
  refine get_eq_iff.mpr fun i hi => ?_
  have hout : i ∉ f := fun hf => h ⟨i, hf, hi⟩
  rw [bit_set, if_neg hout]

theorem set_comm_of_not_meets (h : ¬ f.Meets g) (word value value' : UInt64) :
    f.set (g.set word value') value = g.set (f.set word value) value' := by
  apply Word.eq_of_bit_eq
  intro i
  simp only [bit_set]
  by_cases hf : i ∈ f
  · have hg : i ∉ g := fun hg => h ⟨i, hf, hg⟩
    simp only [hf, hg, ↓reduceIte]
  · simp only [hf, ↓reduceIte]

theorem Meets.symm (h : f.Meets g) : g.Meets f :=
  let ⟨i, hf, hg⟩ := h
  ⟨i, hg, hf⟩

/-- A value of all ones written through a common position is seen by the other field. -/
theorem not_meets_of_independent (h : f.Independent g) : ¬ f.Meets g := by
  rintro ⟨i, hf, hg⟩
  have hseen := get_eq_iff.mp (h.keepsSecond 0 Word.largest) i hg
  have hlt : i - f.lo < 64 := Nat.lt_of_le_of_lt (Nat.sub_le _ _) (Nat.lt_of_lt_of_le hf.2 f.top_le)
  rw [bit_set, if_pos hf, Word.bit_largest, Word.bit_zero, decide_eq_true hlt] at hseen
  cases hseen

theorem independent_iff_not_meets : f.Independent g ↔ ¬ f.Meets g := by
  refine ⟨not_meets_of_independent, fun h => ⟨?_, ?_, ?_⟩⟩
  · exact get_set_of_not_meets h
  · exact get_set_of_not_meets (mt Meets.symm h)
  · exact set_comm_of_not_meets h

theorem overlaps_iff_lt : f.overlaps g = true ↔ f.lo < g.top ∧ g.lo < f.top := by
  simp only [overlaps, Bool.and_eq_true, decide_eq_true_eq]

/-- Intervals that cross and have positions have a common one, the higher of their first. -/
theorem meets_of_overlaps (h : f.overlaps g = true) (hf : f.isEmpty = false)
    (hg : g.isEmpty = false) : f.Meets g := by
  obtain ⟨hfg, hgf⟩ := overlaps_iff_lt.mp h
  have hf' : f.lo < f.top := Nat.lt_of_le_of_ne f.lo_le_top fun heq => by simp [isEmpty, heq] at hf
  have hg' : g.lo < g.top := Nat.lt_of_le_of_ne g.lo_le_top fun heq => by simp [isEmpty, heq] at hg
  refine ⟨max f.lo g.lo, mem_iff.mpr ?_, mem_iff.mpr ?_⟩ <;> omega

theorem overlaps_of_meets (h : f.Meets g) : f.overlaps g = true := by
  obtain ⟨i, ⟨hfi, hif⟩, hgi, hig⟩ := h
  exact overlaps_iff_lt.mpr ⟨by omega, by omega⟩

/-- An empty field crosses an interval exactly if it lies strictly inside. -/
theorem overlaps_iff_of_isEmpty (h : f.isEmpty = true) :
    f.overlaps g = true ↔ f.EmptyWithin g := by
  have heq := lo_eq_top h
  rw [overlaps_iff_lt, ← heq]
  exact ⟨fun ⟨hbelow, habove⟩ => ⟨h, habove, hbelow⟩, fun hin => ⟨hin.below, hin.above⟩⟩

/-- Fields are independent exactly if they have no common position. The test finds every common
position, and apart from that only empty fields strictly inside another, which are independent. -/
theorem overlaps_exactly (f g : Bitfield) :
    (f.Independent g ↔ ¬ f.Meets g) ∧
      (f.overlaps g = true ↔ f.Meets g ∨ f.EmptyWithin g ∨ g.EmptyWithin f) ∧
      (f.EmptyWithin g ∨ g.EmptyWithin f → f.Independent g) := by
  refine ⟨independent_iff_not_meets, ⟨fun h => ?_, fun h => ?_⟩, fun h => ?_⟩
  · cases hf : f.isEmpty with
    | true => exact Or.inr (Or.inl ((overlaps_iff_of_isEmpty hf).mp h))
    | false =>
      cases hg : g.isEmpty with
      | true => exact Or.inr (Or.inr ((overlaps_iff_of_isEmpty hg).mp (overlaps_comm g f ▸ h)))
      | false => exact Or.inl (meets_of_overlaps h hf hg)
  · rcases h with hmeets | hin | hin
    · exact overlaps_of_meets hmeets
    · exact (overlaps_iff_of_isEmpty hin.empty).mpr hin
    · exact overlaps_comm f g ▸ (overlaps_iff_of_isEmpty hin.empty).mpr hin
  · rw [independent_iff_not_meets]
    rintro ⟨i, hf, hg⟩
    rcases h with hin | hin
    · exact not_mem_of_isEmpty hin.empty i hf
    · exact not_mem_of_isEmpty hin.empty i hg

/-- The empty field at bit 4 has no bit of the low byte and is said to overlap it. -/
theorem overlaps_empty_in_byte :
    ∃ f g, ofBounds 7 0 = .ok f ∧ below? 4 0 = some g ∧ f.overlaps g = true ∧
      ¬ f.Meets g ∧ f.Independent g := by
  refine ⟨span 7 0, ⟨4, 4, by decide, by decide, by decide⟩, rfl, rfl, by decide, ?_⟩
  have hapart : ¬ (span 7 0).Meets ⟨4, 4, by decide, by decide, by decide⟩ := fun ⟨i, _, hi⟩ =>
    not_mem_of_isEmpty (by decide) i hi
  exact ⟨hapart, independent_iff_not_meets.mpr hapart⟩

end TieredMemory.Bitfield
