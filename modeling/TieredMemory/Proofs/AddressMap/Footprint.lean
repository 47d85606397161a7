import TieredMemory.Proofs.AddressMap.RoundTrip

/-!
# The bits that a reading depends on

The encoding table lists the fields of a tier and mode; reading a word is a cascade of flag tests
written beside it. The two agree: a word's reading is told by the bits of the fields that the table
lists for it, each of which counts, and no other bit is looked at.
-/
set_option autoImplicit false

namespace TieredMemory

theorem Word.bit_one (i : Nat) : bit 1 i = decide (i = 0) := by
  cases i with
  | zero => rfl
  | succ i =>
    rw [← testBit_toNat, decide_eq_false (Nat.succ_ne_zero i)]
    exact Nat.testBit_lt_two_pow (Nat.one_lt_two_pow (Nat.succ_ne_zero i))

/-- The word with bit `i` turned over. -/
def Word.flip (w : UInt64) (i : Nat) : UInt64 := w ^^^ shiftLeft 1 i

theorem Word.bit_flip (w : UInt64) {i : Nat} (hi : i < 64) (j : Nat) :
    bit (flip w i) j = if j = i then !bit w j else bit w j := by
  rw [flip, bit_xor, bit_shiftLeft, bit_one]
  by_cases h : j = i
  · subst h
    simp [hi]
  · have hd : i ≤ j → j - i ≠ 0 := by omega
    by_cases hle : i ≤ j
    · simp [h, hd hle]
    · simp [h, hle]

namespace AddressMap

variable {m : AddressMap} {v w : UInt64} {issuer : CoreId} {fields : List Field}

variable (m) in
/-- The words have the same bits in the given fields. -/
def AgreeOn (fields : List Field) (v w : UInt64) : Prop :=
  ∀ f ∈ fields, ∀ i ∈ m.layout.field f, Word.bit v i = Word.bit w i

theorem agreeOn_iff : m.AgreeOn fields v w ↔ ∀ f ∈ fields, m.get v f = m.get w f :=
  forall₂_congr fun _ _ => Bitfield.get_eq_iff.symm

/-- Words agree with a word that has one bit turned over if none of the fields has that bit. -/
theorem agreeOn_flip_iff {i : Nat} (hi : i < 64) :
    m.AgreeOn fields v (Word.flip v i) ↔ ∀ f ∈ fields, i ∉ m.layout.field f := by
  constructor
  · intro h f hf hm
    have hb := h f hf i hm
    rw [Word.bit_flip v hi, if_pos rfl] at hb
    exact (Bool.eq_not_self _).mp hb
  · intro h f hf j hj
    have hne : j ≠ i := fun he => h f hf (he ▸ hj)
    rw [Word.bit_flip v hi, if_neg hne]

/-- Words that are read alike hold the same in every field of their encoding. -/
theorem get_eq_of_decode_eq (hv : ReadAs m v issuer (m.decode v issuer) fields)
    (h : m.decode v issuer = m.decode w issuer) : ∀ f ∈ fields, m.get v f = m.get w f := by
  obtain ⟨fields', hw⟩ := decode_readAs (m := m) w issuer
  rw [← h] at hw
  obtain rfl : fields = fields' := Option.some.inj (hv.encoding.symm.trans hw.encoding)
  intro f hf
  rw [hv.contents f hf, hw.contents f hf]

/-- A word that holds the same in the fields of another's encoding is read alike. -/
theorem decode_eq_of_get_eq (hv : ReadAs m v issuer (m.decode v issuer) fields)
    (h : ∀ f ∈ fields, m.get v f = m.get w f) : m.decode v issuer = m.decode w issuer := by
  have hc : ∀ f ∈ fields, m.get w f = (m.decode v issuer).content f :=
    fun f hf => (h f hf).symm.trans (hv.contents f hf)
  rw [decode_of_contents issuer hv.wellFormed hv.encoding hc, hv.issued]

/-- Two words are read alike exactly if they agree on the fields that the table lists for the tier
and mode that the first is read as. So turning over a bit changes the reading exactly if the bit is
in one of these fields. -/
theorem decode_eq_iff_agreeOn (m : AddressMap) (v w : UInt64) (issuer : CoreId) :
    ∃ fields, Layout.encoding (m.decode v issuer).tier (m.decode v issuer).mode = .ok fields ∧
      (m.decode v issuer = m.decode w issuer ↔ m.AgreeOn fields v w) ∧
      ∀ i < 64, m.decode v issuer = m.decode (Word.flip v i) issuer ↔
        ∀ f ∈ fields, i ∉ m.layout.field f := by
  obtain ⟨fields, hv⟩ := decode_readAs (m := m) v issuer
  have hiff : ∀ w, m.decode v issuer = m.decode w issuer ↔ m.AgreeOn fields v w := fun w =>
    Iff.trans ⟨get_eq_of_decode_eq hv, decode_eq_of_get_eq hv⟩ agreeOn_iff.symm
  refine ⟨fields, by rw [Layout.encoding, hv.encoding], hiff w, fun i hi => ?_⟩
  rw [hiff, agreeOn_flip_iff hi]

end AddressMap

end TieredMemory
