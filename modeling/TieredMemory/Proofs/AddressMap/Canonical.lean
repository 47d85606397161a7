import TieredMemory.Proofs.AddressMap.RoundTrip

/-!
# Encoding what was read

A word may have bits that its reading does not look at, and coordinates that its fields can hold but
the machine does not have. Encoding the reading clears the former and refuses the latter; these are
the only two outcomes.
-/
set_option autoImplicit false

namespace TieredMemory

/-- The bits of the given fields. -/
def Layout.bitsOf (l : Layout) (fields : List Field) : UInt64 :=
  fields.foldr (fun f rest => Word.shiftLeft (l.field f).mask (l.field f).lo ||| rest) 0

theorem Layout.bit_bitsOf (l : Layout) (fields : List Field) (i : Nat) :
    Word.bit (l.bitsOf fields) i = true ↔ ∃ f ∈ fields, i ∈ l.field f := by
  induction fields with
  | nil => simp [bitsOf]
  | cons f rest ih =>
    have hc : l.bitsOf (f :: rest) =
        Word.shiftLeft (l.field f).mask (l.field f).lo ||| l.bitsOf rest := rfl
    rw [hc, Word.bit_or, Bool.or_eq_true, Bitfield.bit_placed_mask, decide_eq_true_eq, ih]
    simp

namespace AddressMap

variable {m : AddressMap} {a : Address} {fields : List Field} {raw : UInt64} {issuer : CoreId}

/-- Without the bits that its reading ignores, a word represents what it is read as. -/
theorem represents_masked (h : ReadAs m raw issuer a fields) :
    m.Represents (raw &&& m.layout.bitsOf fields) a fields := by
  constructor
  · intro f hf
    rw [← h.contents f hf]
    apply Bitfield.get_eq_iff.mpr
    intro i hi
    rw [Word.bit_and, (m.layout.bit_bitsOf fields i).mpr ⟨f, hf, hi⟩, Bool.and_true]
  · intro i hi
    rw [Word.bit_and, Bool.and_eq_true] at hi
    exact (m.layout.bit_bitsOf fields i).mp hi.2

theorem and_eq_self_iff (v w : UInt64) : v &&& w = v ↔ v &&& ~~~w = 0 := by
  constructor
  · intro h
    apply Word.eq_of_bit_eq
    intro i
    rw [← h]
    cases hw : Word.bit w i <;> simp [hw]
  · intro h
    apply Word.eq_of_bit_eq
    intro i
    have hi := congrArg (Word.bit · i) h
    by_cases hlt : i < 64
    · cases hv : Word.bit v i <;> simp [hv, hlt] at hi ⊢
      exact hi
    · rw [Word.bit_past (Nat.not_lt.mp hlt), Word.bit_past (Nat.not_lt.mp hlt)]

/-- Encoding the reading of a word clears the bits outside the fields of its encoding, or refuses
the first coordinate that the machine does not have. -/
theorem encode_decode (m : AddressMap) (raw : UInt64) (issuer : CoreId) :
    ∃ fields, Layout.encoding (m.decode raw issuer).tier (m.decode raw issuer).mode = .ok fields ∧
      ((m.Inside (m.decode raw issuer) ∧
          m.encode (m.decode raw issuer) = .ok (raw &&& m.layout.bitsOf fields) ∧
          m.decode (raw &&& m.layout.bitsOf fields) issuer = m.decode raw issuer ∧
          (m.encode (m.decode raw issuer) = .ok raw ↔ raw &&& ~~~(m.layout.bitsOf fields) = 0)) ∨
        ∃ level value, m.FirstOutside (m.decode raw issuer) level value ∧
          m.encode (m.decode raw issuer) =
            .error (.coordinateOutOfRange level value (m.topology.count level))) := by
  obtain ⟨fields, h⟩ := decode_readAs (m := m) raw issuer
  refine ⟨fields, by rw [Layout.encoding, h.encoding], ?_⟩
  by_cases hin : m.Inside (m.decode raw issuer)
  · obtain ⟨off, ho⟩ := Field.exists_offset h.encoding
    have hr := represents_masked h
    have he := (encode_eq_ok_iff _ h.encoding ho).mpr ⟨hin, offset_fits h ho, hr⟩
    refine Or.inl ⟨hin, he, ?_, ?_⟩
    · rw [decode_of_represents issuer h.wellFormed h.encoding hr, h.issued]
    · rw [he, Except.ok.injEq, and_eq_self_iff]
  · exact Or.inr (encode_outside hin)

end AddressMap

end TieredMemory
