import TieredMemory.AddressMap
import TieredMemory.Proofs.Layout

/-!
# What the fields of a word hold

An address says what each field of its encoding holds, and leaves every other bit of the word zero.
Encoding builds that word and no other; decoding reads its fields back. Both directions are proved
against this one description, so that neither refers to the steps of the other.
-/
set_option autoImplicit false

namespace TieredMemory

/-- The fields of one bit that tell modes and tiers apart. -/
def Field.flags : List Field :=
  [.isAbsolute, .absoluteIsDram, .absoluteIsL2sp, .absoluteIsCtrl, .relativeIsDram, .relativeIsL2sp]

/-- What the address has in a field of its encoding. -/
def Address.content (a : Address) : Field → UInt64
  | .isAbsolute => if a.mode = .absolute then 1 else 0
  | .absoluteIsDram | .relativeIsDram => if a.tier = .dram then 1 else 0
  | .absoluteIsL2sp | .relativeIsL2sp => if a.tier = .l2sp then 1 else 0
  | .absoluteIsCtrl => if a.tier = .ctrl then 1 else 0
  | .absolutePxn => a.pxn.getD 0
  | .absolutePod => a.pod.getD 0
  | .absoluteCore => a.core.getD 0
  | .absoluteDramOffset | .absoluteL2spOffset | .absoluteL1spOffset | .absoluteCtrlOffset
  | .relativeL1spOffset | .relativeL2spOffset | .relativeDramOffset => a.offset

/-- The levels whose coordinates are looked at before those of this one. -/
def Level.outer : Level → List Level
  | .pxn => []
  | .pod => [.pxn]
  | .core => [.pxn, .pod]

namespace AddressMap

variable (m : AddressMap)

theorem shape : Layout.Planned m.topology m.layout := Layout.planned_of_plan m.planned

/-- The word with each value written into its field, in order. -/
def written (raw : UInt64) (values : List (Field × UInt64)) : UInt64 :=
  values.foldl (fun word p => (m.layout.field p.1).set word p.2) raw

/-- The word holds what the address says in the given fields, and nothing outside them. -/
structure Represents (raw : UInt64) (a : Address) (fields : List Field) : Prop where
  contents : ∀ f ∈ fields, m.get raw f = a.content f
  padding : ∀ i, Word.bit raw i = true → ∃ f ∈ fields, i ∈ m.layout.field f

/-- Every coordinate that is given is one of the machine. -/
def Inside (a : Address) : Prop :=
  ∀ level value, a.coordinate level = some value → value < m.topology.count level

/-- The first coordinate, from the outermost level on, that the machine does not have. -/
structure FirstOutside (a : Address) (level : Level) (value : UInt64) : Prop where
  given : a.coordinate level = some value
  outside : m.topology.count level ≤ value
  outer : ∀ l ∈ level.outer, ∀ v, a.coordinate l = some v → v < m.topology.count l

variable {m}

/-- A description has one word at most. -/
theorem represents_unique {v w : UInt64} {a : Address} {fields : List Field}
    (hv : m.Represents v a fields) (hw : m.Represents w a fields) : v = w := by
  apply Word.eq_of_bit_eq
  intro i
  have hagree : ∀ f ∈ fields, i ∈ m.layout.field f → Word.bit v i = Word.bit w i := fun f hf hi =>
    Bitfield.get_eq_iff.mp ((hv.contents f hf).trans (hw.contents f hf).symm) i hi
  cases hbv : Word.bit v i with
  | true =>
    obtain ⟨f, hf, hi⟩ := hv.padding i hbv
    rw [← hagree f hf hi, hbv]
  | false =>
    cases hbw : Word.bit w i with
    | true =>
      obtain ⟨f, hf, hi⟩ := hw.padding i hbw
      rw [← hbv, hagree f hf hi, hbw]
    | false => rfl

theorem flag_fits {f : Field} (hf : f ∈ Field.flags) : (m.layout.field f).fits 1 = true := by
  rw [Bitfield.fits_iff]
  simp only [Field.flags, List.mem_cons, List.not_mem_nil, or_false] at hf
  rcases hf with rfl | rfl | rfl | rfl | rfl | rfl <;> exact Nat.lt_two_pow_self

variable (m) in
/-- A flag is clear or set. -/
theorem flag_get (raw : UInt64) {f : Field} (hf : f ∈ Field.flags) :
    m.get raw f = 0 ∨ m.get raw f = 1 := by
  have hlt := (Bitfield.fits_iff _).mp (Bitfield.fits_get (f := m.layout.field f) raw)
  have hb : (m.layout.field f).bits = 1 := by
    simp only [Field.flags, List.mem_cons, List.not_mem_nil, or_false] at hf
    rcases hf with rfl | rfl | rfl | rfl | rfl | rfl <;> rfl
  rw [hb] at hlt
  have hc : (m.get raw f).toNat = 0 ∨ (m.get raw f).toNat = 1 := by
    unfold get
    omega
  exact hc.imp UInt64.toNat_inj.mp UInt64.toNat_inj.mp

section Writing

variable (raw : UInt64) {values : List (Field × UInt64)}

theorem put_of_fits {f : Field} {value : UInt64} (h : (m.layout.field f).fits value = true) :
    m.put raw f value = .ok ((m.layout.field f).set raw value) := by
  simp only [put, Bitfield.set?, h, ↓reduceIte]

theorem put_of_not_fits {f : Field} {value : UInt64} (h : (m.layout.field f).fits value = false) :
    m.put raw f value = .error (.fieldOverflow f value (m.layout.field f).bits) := by
  simp [put, Bitfield.set?, h]

/-- Values that fit are written; what follows them is put on top. -/
theorem putAll_append (h : ∀ p ∈ values, (m.layout.field p.1).fits p.2 = true)
    (rest : List (Field × UInt64)) :
    m.putAll raw (values ++ rest) = m.putAll (m.written raw values) rest := by
  induction values generalizing raw with
  | nil => rfl
  | cons p values ih =>
    simp only [List.cons_append, putAll, put_of_fits raw (h p List.mem_cons_self)]
    exact ih _ fun q hq => h q (List.mem_cons_of_mem _ hq)

theorem get_written_of_apart {f : Field}
    (h : ∀ p ∈ values, (m.layout.field f).overlaps (m.layout.field p.1) = false) :
    m.get (m.written raw values) f = m.get raw f := by
  induction values generalizing raw with
  | nil => rfl
  | cons p values ih =>
    refine (ih _ fun q hq => h q (List.mem_cons_of_mem _ hq)).trans ?_
    exact Bitfield.get_set_of_apart _ _ (h p List.mem_cons_self)

/-- After writing fields that do not cross, each holds its value. -/
theorem get_written_of_mem
    (ha : values.Pairwise fun p q =>
      (m.layout.field p.1).overlaps (m.layout.field q.1) = false)
    {p : Field × UInt64} (hp : p ∈ values) (hf : (m.layout.field p.1).fits p.2 = true) :
    m.get (m.written raw values) p.1 = p.2 := by
  induction values generalizing raw with
  | nil => cases hp
  | cons q values ih =>
    obtain ⟨hq, ha⟩ := List.pairwise_cons.mp ha
    rcases List.mem_cons.mp hp with rfl | hp
    · exact (get_written_of_apart _ hq).trans (Bitfield.get_set _ _ hf)
    · exact ih _ ha hp

theorem mem_of_bit_written {i : Nat} (h : Word.bit (m.written raw values) i = true) :
    Word.bit raw i = true ∨ ∃ p ∈ values, i ∈ m.layout.field p.1 := by
  induction values generalizing raw with
  | nil => exact Or.inl h
  | cons q values ih =>
    rcases ih _ h with hw | ⟨p, hp, hi⟩
    · rw [Bitfield.bit_set] at hw
      split at hw
      · next hi => exact Or.inr ⟨q, List.mem_cons_self, hi⟩
      · exact Or.inl hw
    · exact Or.inr ⟨p, List.mem_cons_of_mem _ hp, hi⟩

end Writing

end AddressMap

end TieredMemory
