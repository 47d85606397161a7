import TieredMemory.Proofs.AddressMap.Acceptance
import TieredMemory.Proofs.AddressMap.Window
import TieredMemory.Proofs.Range.Stripes

/-!
# Envelopes that leave the word

A region is accepted for its step and its size, whether or not a bank holds a stripe. The envelope
of bank 0 has the most stripes behind it: if one stripe for each bank but one is less than the
region, every bank has an envelope in order, and if not, the one of bank 0 ends before the region
begins. Placing a bank adds no other arithmetic that could fail.
-/
set_option autoImplicit false

namespace TieredMemory

section Except

variable {ε α β : Type} {x : Except ε α} {e : ε}

theorem bind_eq_error_iff {f : α → Except ε β} :
    x.bind f = .error e ↔ x = .error e ∨ ∃ a, x = .ok a ∧ f a = .error e := by
  cases x <;> simp [Except.bind]

@[simp] theorem Failure.ofError_eq_ok_iff {a : α} : Failure.ofError x = .ok a ↔ x = .ok a := by
  cases x <;> simp [Failure.ofError, Except.mapError]

/-- An error of the domain is no fault. -/
@[simp] theorem Failure.ofError_ne_fault (x : Except ε α) (fault : ArithmeticFault) :
    Failure.ofError x ≠ .error (.fault fault) := by
  cases x <;> simp [Failure.ofError, Except.mapError]

end Except

namespace Region

variable {r : Region} {m : AddressMap} {bank : UInt64} {fault : ArithmeticFault}

theorem make_self (r : Region) : make r.bankSize r.stripe r.step = .ok r := by
  rw [make, dif_neg r.bankSize_ne, dif_pos r.step_whole, dif_pos r.fits]

theorem envelope_ne_fault (h : r.HasRoom) (bank : UInt64) :
    r.envelope bank ≠ .error (.fault fault) := by
  intro he
  by_cases hb : r.banks ≤ bank
  · rw [envelope, if_pos hb] at he
    cases he
  · obtain ⟨_, _, hok, _⟩ := exists_envelope h (UInt64.not_le.mp hb)
    cases hok.symm.trans he

theorem zero_lt_banks (r : Region) : 0 < r.banks := UInt64.lt_iff_toNat_lt.mpr r.banks_pos

theorem banks_ne (r : Region) : r.banks ≠ 0 := UInt64.pos_iff_ne_zero.mp r.zero_lt_banks

theorem envelope_zero_of_not_hasRoom (h : ¬ r.HasRoom) :
    r.envelope 0 = .error (.fault .subtraction) := by
  have hsum := stripes_around r.zero_lt_banks
  have hzero : (0 : UInt64).toNat * r.stripe.toNat = 0 := Nat.zero_mul _
  unfold HasRoom at h
  exact envelope_of_no_room r.zero_lt_banks (by omega)

/-- An envelope is in order exactly if its region has room, whichever bank it is of. -/
theorem first_le_last_iff {first last : UInt64} (he : r.envelope bank = .ok (first, last)) :
    first ≤ last ↔ r.HasRoom := by
  obtain ⟨hb, hf, hl⟩ := ends_of_envelope he
  have hsum := stripes_around hb
  rw [UInt64.le_iff_toNat_le, HasRoom]
  omega

/-! ## Placing a bank -/

section Placing

variable {addressAt : UInt64 → Address}

theorem outcome_place (r : Region) (m : AddressMap) (bank : UInt64)
    (addressAt : UInt64 → Address) :
    (r.place m bank addressAt).outcome = (r.envelope bank).bind fun ends =>
      (Failure.ofError (m.encode (addressAt ends.1))).bind fun start =>
        (Failure.ofError (m.encode (addressAt ends.2))).bind fun stop =>
          .ok ⟨start, stop, r.stripe, r.step⟩ := by
  simp only [place, AddressMap.encodeLogged, Logged.outcome_bind, Logged.outcome_ofExcept,
    Logged.outcome_mapError, Logged.outcome_noting, Logged.outcome_emit, Logged.outcome_pure]
  rfl

/-- A placed bank has the words of both ends of its envelope. -/
theorem ends_of_place {range : AddressRange}
    (h : (r.place m bank addressAt).outcome = .ok range) :
    ∃ first last, r.envelope bank = .ok (first, last) ∧
      m.encode (addressAt first) = .ok range.start ∧
        m.encode (addressAt last) = .ok range.last := by
  rw [outcome_place] at h
  obtain ⟨⟨first, last⟩, he, h⟩ := exists_of_bind_eq_ok h
  obtain ⟨start, hstart, h⟩ := exists_of_bind_eq_ok h
  obtain ⟨stop, hstop, h⟩ := exists_of_bind_eq_ok h
  cases h
  exact ⟨first, last, he, Failure.ofError_eq_ok_iff.mp hstart, Failure.ofError_eq_ok_iff.mp hstop⟩

/-- Placing a bank leaves the word exactly where its envelope does. -/
theorem place_fault_iff : (r.place m bank addressAt).outcome = .error (.fault fault) ↔
    r.envelope bank = .error (.fault fault) := by
  simp only [outcome_place, bind_eq_error_iff, Failure.ofError_ne_fault, reduceCtorEq, and_false,
    exists_false, or_false]

/-- The words of the ends of an envelope are as far apart as the ends. -/
theorem exists_base_of_place {a : Address} {range : AddressRange}
    (h : (r.place m bank fun offset => { a with offset := offset }).outcome = .ok range) :
    ∃ base first last, r.envelope bank = .ok (first, last) ∧
      range.start.toNat = base + first.toNat ∧ range.last.toNat = base + last.toNat := by
  obtain ⟨first, last, he, hstart, hlast⟩ := ends_of_place h
  obtain ⟨off, ho⟩ := AddressMap.exists_offset_of_encode hstart
  obtain ⟨fields, henc⟩ := Field.exists_encoding ho
  have hfits := fun offset (raw : UInt64) =>
    AddressMap.encode_eq_ok_iff (m := m) (a := { a with offset := offset }) raw henc ho
  obtain ⟨hin, hfit, _⟩ := (hfits first _).mp hstart
  obtain ⟨_, hfit', _⟩ := (hfits last _).mp hlast
  obtain ⟨base, hbase⟩ := AddressMap.exists_base hin ho
  obtain ⟨start, hs, hs'⟩ := hbase first hfit
  obtain ⟨stop, hl, hl'⟩ := hbase last hfit'
  cases hs.symm.trans hstart
  cases hl.symm.trans hlast
  exact ⟨base.toNat, first, last, he, hs', hl'⟩

/-- With room the span of every bank is the region less one stripe for each other bank. -/
theorem span_of_hasRoom (h : r.HasRoom) {a : Address} {range : AddressRange}
    (hplace : (r.place m bank fun offset => { a with offset := offset }).outcome = .ok range) :
    ∃ bytes, range.span = .ok bytes ∧
      bytes.toNat + (r.banks.toNat - 1) * r.stripe.toNat = r.totalSize.toNat := by
  obtain ⟨base, first, last, he, hstart, hlast⟩ := exists_base_of_place hplace
  have hle := UInt64.le_iff_toNat_le.mp ((first_le_last_iff he).mpr h)
  obtain ⟨hb, hf, hl⟩ := ends_of_envelope he
  have hsum := stripes_around hb
  have hord : range.start.toNat ≤ range.last.toNat := by omega
  have hsub := Word.toNat_sub_of_le hord
  have hone : (1 : UInt64).toNat = 1 := rfl
  have htotal := Word.lt_size r.totalSize
  have hfit : (range.last - range.start).toNat + (1 : UInt64).toNat < UInt64.size := by omega
  refine ⟨range.last - range.start + 1, ?_, ?_⟩
  · rw [AddressRange.span, Word.sub_eq_ok hord]
    exact if_pos hfit
  · rw [UInt64.toNat_add, Nat.mod_eq_of_lt hfit, hsub, hone]
    omega

/-- Without room the ends of an envelope are the wrong way round. -/
theorem span_of_not_hasRoom (h : ¬ r.HasRoom) {a : Address} {range : AddressRange}
    (hplace : (r.place m bank fun offset => { a with offset := offset }).outcome = .ok range) :
    range.span = .error .subtraction := by
  obtain ⟨base, first, last, he, hstart, hlast⟩ := exists_base_of_place hplace
  have hlt := UInt64.lt_iff_toNat_lt.mp (UInt64.not_le.mp (mt (first_le_last_iff he).mp h))
  have hord : ¬ range.start.toNat ≤ range.last.toNat := by omega
  rw [AddressRange.span, Word.sub, if_neg hord]
  rfl

end Placing

variable (r) in
/-- Which envelopes of the region are sound, and what goes wrong with the others. -/
structure EnvelopesExactly : Prop where
  accepted : make r.bankSize r.stripe r.step = .ok r
  room : r.banks = 1 ∨ r.stripe ≤ r.bankSize → r.HasRoom
  sound : r.HasRoom → ∀ bank, bank < r.banks → ∃ first last, r.envelope bank = .ok (first, last) ∧
    first ≤ last ∧ last ≤ r.totalSize - 1
  /-- Bank 0 has the most stripes behind it; a bank that has an envelope has it backwards. -/
  unsound : ¬ r.HasRoom → r.envelope 0 = .error (.fault .subtraction) ∧
    ∀ bank, bank < r.banks → r.envelope bank = .error (.fault .subtraction) ∨
      ∃ first last, r.envelope bank = .ok (first, last) ∧ last < first
  place : ∀ m bank addressAt fault, (r.place m bank addressAt).outcome = .error (.fault fault) ↔
    r.envelope bank = .error (.fault fault)
  /-- The banks of a tier are placed by addresses that differ in the offset. -/
  placeFor : ∀ m tier owner bank, r.placeFor m tier owner bank =
    r.place m bank fun offset => { Address.absoluteFor tier owner 0 with offset := offset }
  span : ∀ m bank (a : Address) range,
    (r.place m bank fun offset => { a with offset := offset }).outcome = .ok range →
      (r.HasRoom → ∃ bytes, range.span = .ok bytes ∧
        bytes.toNat + (r.banks.toNat - 1) * r.stripe.toNat = r.totalSize.toNat) ∧
      (¬ r.HasRoom → range.span = .error .subtraction)

theorem envelopesExactly (r : Region) : r.EnvelopesExactly where
  accepted := r.make_self
  room h := h.elim hasRoom_of_single hasRoom_of_stripe_le
  sound h bank hb := by
    obtain ⟨first, last, he, _, hlast, hle⟩ := exists_envelope h hb
    have htotal : r.totalSize ≠ 0 := fun hz => by
      have hzero : r.totalSize.toNat = 0 := congrArg UInt64.toNat hz
      omega
    refine ⟨first, last, he, UInt64.le_iff_toNat_le.mpr hle, UInt64.le_iff_toNat_le.mpr ?_⟩
    rw [Word.toNat_sub_one htotal]
    omega
  unsound h := by
    refine ⟨envelope_zero_of_not_hasRoom h, fun bank hb => ?_⟩
    rcases Nat.lt_or_ge (r.behind bank) r.totalSize.toNat with hroom | hroom
    · obtain ⟨first, last, he, _⟩ := envelope_of_room hb hroom
      exact Or.inr ⟨first, last, he, UInt64.not_le.mp (mt (first_le_last_iff he).mp h)⟩
    · exact Or.inl (envelope_of_no_room hb hroom)
  place _ _ _ _ := place_fault_iff
  placeFor m tier owner bank := by
    simp only [Address.absoluteFor_with_offset]
    rfl
  span _ _ _ _ hplace := ⟨fun h => span_of_hasRoom h hplace, fun h => span_of_not_hasRoom h hplace⟩

end Region

end TieredMemory
