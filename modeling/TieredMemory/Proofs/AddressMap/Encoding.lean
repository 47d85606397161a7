import TieredMemory.Proofs.AddressMap.Contents

/-!
# Encoding builds the word an address describes

The coordinates are looked at first, then flags and coordinates are written, then the offset. Only
the offset can fail to fit: the width of every level was planned for all coordinates below its
count.
-/
set_option autoImplicit false

namespace TieredMemory

/-- The flags to set and the coordinates, in the order in which they are written. -/
def Field.selectors : Mode → Tier → List Field
  | .absolute, .dram => [.isAbsolute, .absoluteIsDram, .absolutePxn]
  | .absolute, .l2sp => [.isAbsolute, .absoluteIsL2sp, .absolutePxn, .absolutePod]
  | .absolute, .l1sp => [.isAbsolute, .absolutePxn, .absolutePod, .absoluteCore]
  | .absolute, .ctrl => [.isAbsolute, .absoluteIsCtrl, .absolutePxn, .absolutePod, .absoluteCore]
  | .relative, .dram => [.relativeIsDram]
  | .relative, .l2sp => [.relativeIsL2sp]
  | .relative, .l1sp | .relative, .ctrl => []

namespace Field

variable {mode : Mode} {tier : Tier} {fields : List Field} {off f : Field}

theorem exists_offset (he : encoding? mode tier = some fields) :
    ∃ off, offset? mode tier = some off := by
  cases mode <;> cases tier <;> cases he <;> exact ⟨_, rfl⟩

theorem exists_absolute_offset (tier : Tier) : ∃ off, offset? .absolute tier = some off := by
  cases tier <;> exact ⟨_, rfl⟩

theorem exists_relative_offset (h : tier.allowsRelative = true) :
    ∃ off, offset? .relative tier = some off := by
  cases tier with
  | ctrl => cases h
  | _ => exact ⟨_, rfl⟩

theorem exists_encoding (ho : offset? mode tier = some off) :
    ∃ fields, encoding? mode tier = some fields := by
  cases mode <;> cases tier <;> cases ho <;> exact ⟨_, rfl⟩

/-- What is written belongs to the encoding. -/
theorem mem_encoding (he : encoding? mode tier = some fields) (ho : offset? mode tier = some off)
    (hf : f ∈ selectors mode tier ++ [off]) : f ∈ fields := by
  revert f
  cases mode <;> cases tier <;> cases he <;> cases ho <;> decide

theorem nodup_written (ho : offset? mode tier = some off) :
    (selectors mode tier ++ [off]).Nodup := by
  cases mode <;> cases tier <;> cases ho <;> decide

end Field

namespace Address

variable (a : Address) {fields : List Field} {off f : Field}

theorem content_ofLevel (level : Level) :
    a.content (.ofLevel level) = (a.coordinate level).getD 0 := by
  cases level <;> rfl

theorem content_offset (ho : Field.offset? a.mode a.tier = some off) :
    a.content off = a.offset := by
  obtain ⟨tier, mode, _, _, _, _, _⟩ := a
  cases mode <;> cases tier <;> cases ho <;> rfl

/-- A selector is a flag to set or the place of a coordinate. -/
theorem content_selector (hf : f ∈ Field.selectors a.mode a.tier) :
    (f ∈ Field.flags ∧ a.content f = 1) ∨ ∃ level, f = .ofLevel level := by
  obtain ⟨tier, mode, _, _, _, _, _⟩ := a
  cases f with
  | absolutePxn => exact Or.inr ⟨.pxn, rfl⟩
  | absolutePod => exact Or.inr ⟨.pod, rfl⟩
  | absoluteCore => exact Or.inr ⟨.core, rfl⟩
  | _ => cases mode <;> cases tier <;> simp [Field.selectors, Field.flags, content] at hf ⊢

/-- Fields of the encoding that are not written are clear flags. -/
theorem content_unwritten (he : Field.encoding? a.mode a.tier = some fields)
    (ho : Field.offset? a.mode a.tier = some off) (hf : f ∈ fields)
    (hw : f ∉ Field.selectors a.mode a.tier ++ [off]) : a.content f = 0 := by
  obtain ⟨tier, mode, _, _, _, _, _⟩ := a
  cases mode <;> cases tier <;> cases he <;> cases ho <;> revert hf hw <;> cases f <;>
    simp [Field.selectors, content]

end Address

namespace AddressMap

variable {m : AddressMap} {a : Address} {fields : List Field} {off : Field}

variable (a) in
/-- The values in the order in which they are written. -/
def toWrite (off : Field) : List (Field × UInt64) :=
  (Field.selectors a.mode a.tier ++ [off]).map fun f => (f, a.content f)

theorem assignments_eq (ho : Field.offset? a.mode a.tier = some off) :
    assignments a = .ok (toWrite a off) := by
  obtain ⟨tier, mode, _, _, _, _, _⟩ := a
  cases mode <;> cases tier <;> cases ho <;> rfl

theorem toWrite_eq (ho : Field.offset? a.mode a.tier = some off) :
    toWrite a off =
      (Field.selectors a.mode a.tier).map (fun f => (f, a.content f)) ++ [(off, a.offset)] := by
  rw [toWrite, List.map_append, List.map_singleton, a.content_offset ho]

section Coordinates

/-- The search stops at the first level whose coordinate the machine does not have. -/
theorem firstOutside?_spec (levels : List Level) :
    match m.firstOutside? a levels with
    | none => ∀ l ∈ levels, ∀ v, a.coordinate l = some v → v < m.topology.count l
    | some (level, value) => ∃ before after, levels = before ++ level :: after ∧
        a.coordinate level = some value ∧ m.topology.count level ≤ value ∧
        ∀ l ∈ before, ∀ v, a.coordinate l = some v → v < m.topology.count l := by
  induction levels with
  | nil => simp [firstOutside?]
  | cons level rest ih =>
    by_cases ho : ∃ v, a.coordinate level = some v ∧ m.topology.count level ≤ v
    · obtain ⟨v, hc, hv⟩ := ho
      have hs : m.firstOutside? a (level :: rest) = some (level, v) := by
        simp only [firstOutside?, hc, hv, ↓reduceIte]
      rw [hs]
      exact ⟨[], rest, rfl, hc, hv, by simp⟩
    · have hin : ∀ v, a.coordinate level = some v → v < m.topology.count level :=
        fun v hc => UInt64.not_le.mp fun hv => ho ⟨v, hc, hv⟩
      have hs : m.firstOutside? a (level :: rest) = m.firstOutside? a rest := by
        rw [firstOutside?]
        cases hc : a.coordinate level with
        | none => rfl
        | some v => exact if_neg (UInt64.not_le.mpr (hin v hc))
      rw [hs]
      split at ih
      · exact List.forall_mem_cons.mpr ⟨hin, ih⟩
      · obtain ⟨before, after, rfl, hc, hv, hb⟩ := ih
        exact ⟨level :: before, after, rfl, hc, hv, List.forall_mem_cons.mpr ⟨hin, hb⟩⟩

theorem outer_eq_of_all {level : Level} {before after : List Level}
    (h : Level.all = before ++ level :: after) : level.outer = before := by
  rcases before with _ | ⟨_, _ | ⟨_, _ | ⟨_, _⟩⟩⟩ <;> simp [Level.all] at h
  · obtain ⟨rfl, _⟩ := h
    rfl
  · obtain ⟨rfl, rfl, _⟩ := h
    rfl
  · obtain ⟨rfl, rfl, rfl, _⟩ := h
    rfl

theorem checkCoordinates_of_inside (h : m.Inside a) : m.checkCoordinates a = .ok () := by
  have hs := firstOutside?_spec (m := m) (a := a) Level.all
  unfold checkCoordinates
  cases hf : m.firstOutside? a Level.all with
  | none => rfl
  | some p =>
    obtain ⟨level, value⟩ := p
    rw [hf] at hs
    obtain ⟨_, _, _, hc, hv, _⟩ := hs
    exact absurd (h level value hc) (UInt64.not_lt.mpr hv)

/-- An address that is not inside is refused for its first coordinate outside. -/
theorem checkCoordinates_of_not_inside (h : ¬ m.Inside a) :
    ∃ level value, m.FirstOutside a level value ∧ m.checkCoordinates a =
      .error (.coordinateOutOfRange level value (m.topology.count level)) := by
  have hs := firstOutside?_spec (m := m) (a := a) Level.all
  unfold checkCoordinates
  cases hf : m.firstOutside? a Level.all with
  | none =>
    rw [hf] at hs
    exact absurd (fun level => hs level (by cases level <;> decide)) h
  | some p =>
    obtain ⟨level, value⟩ := p
    rw [hf] at hs
    obtain ⟨before, after, hl, hc, hv, hb⟩ := hs
    exact ⟨level, value, ⟨hc, hv, by rwa [outer_eq_of_all hl]⟩, rfl⟩

end Coordinates

/-- Flags always fit, and so do the coordinates of the machine. -/
theorem selector_fits (hin : m.Inside a) {f : Field} (hf : f ∈ Field.selectors a.mode a.tier) :
    (m.layout.field f).fits (a.content f) = true := by
  rcases a.content_selector hf with ⟨hflag, hone⟩ | ⟨level, rfl⟩
  · rw [hone]
    exact flag_fits hflag
  · rw [a.content_ofLevel]
    apply m.shape.coordinate_fits
    cases hc : a.coordinate level with
    | none => exact m.shape.zero_lt_count level
    | some v => exact hin level v hc

theorem toWrite_fits (hin : m.Inside a) (ho : Field.offset? a.mode a.tier = some off)
    (hfit : (m.layout.field off).fits a.offset = true) :
    ∀ p ∈ toWrite a off, (m.layout.field p.1).fits p.2 = true := by
  intro p hp
  obtain ⟨f, hf, rfl⟩ := List.mem_map.mp hp
  rcases List.mem_append.mp hf with hs | hs
  · exact selector_fits hin hs
  · rw [List.mem_singleton.mp hs, a.content_offset ho]
    exact hfit

theorem toWrite_apart (m : AddressMap) (he : Field.encoding? a.mode a.tier = some fields)
    (ho : Field.offset? a.mode a.tier = some off) :
    (toWrite a off).Pairwise fun p q =>
      (m.layout.field p.1).overlaps (m.layout.field q.1) = false :=
  List.pairwise_map.mpr ((Field.nodup_written ho).imp_of_mem fun hf hg hne =>
    m.shape.apart he (Field.mem_encoding he ho hf) (Field.mem_encoding he ho hg) hne)

/-- The word that is built holds exactly what the address says. -/
theorem represents_written (hin : m.Inside a)
    (he : Field.encoding? a.mode a.tier = some fields)
    (ho : Field.offset? a.mode a.tier = some off)
    (hfit : (m.layout.field off).fits a.offset = true) :
    m.Represents (m.written 0 (toWrite a off)) a fields := by
  have hfits := toWrite_fits hin ho hfit
  have happart := toWrite_apart m he ho
  constructor
  · intro f hf
    by_cases hw : f ∈ Field.selectors a.mode a.tier ++ [off]
    · exact get_written_of_mem 0 happart (List.mem_map_of_mem hw)
        (hfits _ (List.mem_map_of_mem hw))
    · rw [a.content_unwritten he ho hf hw, get_written_of_apart]
      · exact Bitfield.get_zero
      · intro p hp
        obtain ⟨g, hg, rfl⟩ := List.mem_map.mp hp
        exact m.shape.apart he hf (Field.mem_encoding he ho hg) fun h => hw (h ▸ hg)
  · intro i hi
    rcases mem_of_bit_written 0 hi with hz | ⟨p, hp, hm⟩
    · rw [Word.bit_zero] at hz
      cases hz
    · obtain ⟨g, hg, rfl⟩ := List.mem_map.mp hp
      exact ⟨g, Field.mem_encoding he ho hg, hm⟩

theorem encode_of_inside (hin : m.Inside a) (ho : Field.offset? a.mode a.tier = some off) :
    m.encode a = m.putAll
      (m.written 0 ((Field.selectors a.mode a.tier).map fun f => (f, a.content f)))
      [(off, a.offset)] := by
  have hfits : ∀ p ∈ (Field.selectors a.mode a.tier).map fun f => (f, a.content f),
      (m.layout.field p.1).fits p.2 = true := by
    intro p hp
    obtain ⟨f, hf, rfl⟩ := List.mem_map.mp hp
    exact selector_fits hin hf
  have ha := assignments_eq ho
  rw [toWrite_eq ho] at ha
  simp only [encode, checkCoordinates_of_inside hin, ha]
  exact putAll_append 0 hfits [(off, a.offset)]

/-- An address inside the machine whose offset fits has the word that represents it. -/
theorem encode_represents (hin : m.Inside a) (he : Field.encoding? a.mode a.tier = some fields)
    (ho : Field.offset? a.mode a.tier = some off)
    (hfit : (m.layout.field off).fits a.offset = true) :
    ∃ raw, m.encode a = .ok raw ∧ m.Represents raw a fields := by
  refine ⟨_, ?_, represents_written hin he ho hfit⟩
  rw [encode_of_inside hin ho, putAll, put_of_fits _ hfit, toWrite_eq ho]
  simp [putAll, written, bind, Except.bind]

/-- Without room for the offset, the offset's field is the one that overflows. -/
theorem encode_overflow (hin : m.Inside a) (ho : Field.offset? a.mode a.tier = some off)
    (hfit : (m.layout.field off).fits a.offset = false) :
    m.encode a = .error (.fieldOverflow off a.offset (m.layout.field off).bits) := by
  rw [encode_of_inside hin ho, putAll, put_of_not_fits _ hfit]
  rfl

theorem encode_outside (h : ¬ m.Inside a) :
    ∃ level value, m.FirstOutside a level value ∧
      m.encode a = .error (.coordinateOutOfRange level value (m.topology.count level)) := by
  obtain ⟨level, value, hf, he⟩ := checkCoordinates_of_not_inside h
  exact ⟨level, value, hf, by rw [encode, he]; rfl⟩

/-- Encoding gives a word exactly for addresses inside the machine whose offset fits, and then the
word that represents the address. -/
theorem encode_eq_ok_iff (raw : UInt64) (he : Field.encoding? a.mode a.tier = some fields)
    (ho : Field.offset? a.mode a.tier = some off) :
    m.encode a = .ok raw ↔
      m.Inside a ∧ (m.layout.field off).fits a.offset = true ∧ m.Represents raw a fields := by
  constructor
  · intro h
    by_cases hin : m.Inside a
    · cases hfit : (m.layout.field off).fits a.offset with
      | true =>
        obtain ⟨word, hw, hr⟩ := encode_represents hin he ho hfit
        cases hw.symm.trans h
        exact ⟨hin, rfl, hr⟩
      | false => cases (encode_overflow hin ho hfit).symm.trans h
    · obtain ⟨level, value, _, ho⟩ := encode_outside hin
      cases ho.symm.trans h
  · rintro ⟨hin, hfit, hr⟩
    obtain ⟨word, hw, hr'⟩ := encode_represents hin he ho hfit
    rw [hw, represents_unique hr' hr]

end AddressMap

end TieredMemory
