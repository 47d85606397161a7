import Mathlib.Data.Set.Card
import Mathlib.Order.Bounds.Defs
import Mathlib.Tactic.Ring
import TieredMemory.Proofs.Range.Stripes

/-!
# Which offsets have an owner

If no stripe is cut short, the banks share the region out: every offset is of the one bank whose
turn it is, and every bank has as many as its size says. If stripes are cut short, the last round is
not served: an offset before its last stripe is outside the envelope of its bank. Two banks never
own the same offset.
-/
set_option autoImplicit false

namespace TieredMemory

/-- The stripe that a byte is in. -/
theorem stripe_of_byte {s q x : Nat} (hx : x < s) : (q * s + x) / s = q := by
  rw [Nat.add_comm, Nat.add_mul_div_right _ _ (Nat.zero_lt_of_lt hx), Nat.div_eq_of_lt hx,
    Nat.zero_add]

/-- If the last of `n` banks' stripes are cut short, some offset in the last round is followed by
the end of the region before the stripe of the last bank is over. -/
theorem exists_cut_stripe {s n size : Nat} (hs : 0 < s) (hn : 1 < n) (hd : ¬ s ∣ size) :
    ∃ o, o < size * n ∧ size * n ≤ o + s ∧ o / s % n + 1 < n := by
  have hmod : 0 < size % s := Nat.pos_of_ne_zero fun h => hd (Nat.dvd_of_mod_eq_zero h)
  have hrest : size % s * n < s * n := Nat.mul_lt_mul_of_pos_right (Nat.mod_lt _ hs) (by omega)
  have hpos : 0 < size % s * n := Nat.mul_pos hmod (by omega)
  have hrounds : size * n = s * (n * (size / s)) + size % s * n := by
    conv_lhs => rw [← Nat.div_add_mod size s]
    ring
  have hlast : s * (n - 1) + s = s * n := by
    rw [← Nat.mul_succ]
    congr 1
    omega
  have hfirst : 0 < s * (n - 1) := Nat.mul_pos hs (by omega)
  -- the last byte of the last round that is not the last bank's
  let y := min (size % s * n) (s * (n - 1)) - 1
  have hy : y + 1 = min (size % s * n) (s * (n - 1)) := by omega
  have hstripe : y / s < n - 1 := Nat.div_lt_of_lt_mul (by omega)
  refine ⟨s * (n * (size / s)) + y, by omega, by omega, ?_⟩
  rw [Nat.mul_add_div hs, Nat.mul_add_mod, Nat.mod_eq_of_lt (by omega)]
  omega

namespace Region

variable (r : Region) (bank : UInt64)

/-- The range of a bank within its region, where the address of a byte is its offset. -/
def rangeWithin : Except (Failure AddressError) AddressRange :=
  (r.envelope bank).map fun (first, last) => ⟨first, last, r.stripe, r.step⟩

/-- The bank has a range and answers to the offset. -/
def Owns (offset : UInt64) : Prop :=
  ∃ range, r.rangeWithin bank = .ok range ∧ range.owns offset = true

/-- The offset of a bank's `k`-th byte: its stripes lie one round apart. -/
def byteAt (k : Nat) : Nat :=
  (k / r.stripe.toNat * r.banks.toNat + bank.toNat) * r.stripe.toNat + k % r.stripe.toNat

/-- The banks share the region out. -/
structure SharedOut : Prop where
  ranges : ∀ bank, bank < r.banks → ∃ range, r.rangeWithin bank = .ok range
  /-- An offset of the region is of the bank whose turn it is, and of no other. -/
  owner : ∀ offset, offset < r.totalSize → ∃ bank, bank < r.banks ∧
    bank.toNat = r.turn offset.toNat ∧ ∀ b, r.Owns b offset ↔ b = bank
  outside : ∀ offset, r.totalSize ≤ offset → ∀ bank, ¬ r.Owns bank offset
  share : ∀ bank, bank < r.banks → {offset | r.Owns bank offset}.ncard = r.bankSize.toNat
  ends : ∀ bank range, r.rangeWithin bank = .ok range →
    IsLeast {offset | r.Owns bank offset} range.start ∧
      IsGreatest {offset | r.Owns bank offset} range.last

/-- Some offset of the region is of no bank. A bank without a range has none because its envelope
would end before the region begins. -/
structure LeavesGaps : Prop where
  ranges : ∀ bank, bank < r.banks → (∃ range, r.rangeWithin bank = .ok range) ∨
    r.rangeWithin bank = .error (.fault .subtraction)
  gap : ∃ offset, offset < r.totalSize ∧ ∀ bank, ¬ r.Owns bank offset

variable {r bank}

theorem exists_of_rangeWithin {range : AddressRange} (h : r.rangeWithin bank = .ok range) :
    ∃ first last, r.envelope bank = .ok (first, last) ∧ bank < r.banks ∧
      range = ⟨first, last, r.stripe, r.step⟩ := by
  unfold rangeWithin at h
  cases he : r.envelope bank with
  | error e =>
    rw [he] at h
    cases h
  | ok ends =>
    obtain ⟨first, last⟩ := ends
    rw [he] at h
    cases h
    exact ⟨first, last, rfl, (ends_of_envelope he).1, rfl⟩

theorem rangeWithin_of_envelope {first last : UInt64} (he : r.envelope bank = .ok (first, last)) :
    r.rangeWithin bank = .ok ⟨first, last, r.stripe, r.step⟩ := by
  rw [rangeWithin, he]
  rfl

theorem lt_banks_of_owns {offset : UInt64} (h : r.Owns bank offset) : bank < r.banks := by
  obtain ⟨range, hr, _⟩ := h
  obtain ⟨_, _, _, hb, _⟩ := exists_of_rangeWithin hr
  exact hb

/-- What a bank owns is its turn, and has room for the stripes behind. -/
theorem turn_of_owns {offset : UInt64} (h : r.Owns bank offset) :
    r.turn offset.toNat = bank.toNat ∧ offset.toNat + r.behind bank < r.totalSize.toNat := by
  obtain ⟨range, hr, hown⟩ := h
  obtain ⟨first, last, he, hb, rfl⟩ := exists_of_rangeWithin hr
  exact (owns_iff_turn_of_room hb he (Nat.zero_add _).symm (Nat.zero_add _).symm rfl rfl
    (Nat.zero_add _).symm).mp hown

/-- No offset is owned twice. -/
theorem owner_unique {bank' offset : UInt64} (h : r.Owns bank offset) (h' : r.Owns bank' offset) :
    bank = bank' := by
  have hturn := (turn_of_owns h).1
  have hturn' := (turn_of_owns h').1
  exact UInt64.toNat_inj.mp (hturn.symm.trans hturn')

theorem toNat_bank_of_single (hone : r.banks = 1) (hb : bank < r.banks) : bank.toNat = 0 := by
  have hlt := UInt64.lt_iff_toNat_lt.mp hb
  rw [hone] at hlt
  exact Nat.lt_one_iff.mp hlt

section Bytes

/-- A single bank has the bytes in their order. -/
theorem byteAt_of_single (hone : r.banks = 1) (hb : bank < r.banks) (k : Nat) :
    r.byteAt bank k = k := by
  have hone' : r.banks.toNat = 1 := congrArg UInt64.toNat hone
  rw [byteAt, toNat_bank_of_single hone hb, hone', Nat.mul_one, Nat.add_zero, Nat.div_add_mod']

theorem byteAt_div (hs : 0 < r.stripe.toNat) (k : Nat) :
    r.byteAt bank k / r.stripe.toNat = k / r.stripe.toNat * r.banks.toNat + bank.toNat :=
  stripe_of_byte (Nat.mod_lt k hs)

theorem byteAt_mod (k : Nat) : r.byteAt bank k % r.stripe.toNat = k % r.stripe.toNat := by
  rw [byteAt, Nat.mul_add_mod_self_right, Nat.mod_mod]

theorem byteAt_injective (hb : bank < r.banks) {k k' : Nat}
    (h : r.byteAt bank k = r.byteAt bank k') : k = k' := by
  by_cases hs : r.stripe = 0
  · have hone := banks_of_unstriped hs
    rwa [byteAt_of_single hone hb, byteAt_of_single hone hb] at h
  · have hs' := Word.toNat_pos hs
    have hdiv := congrArg (· / r.stripe.toNat) h
    have hmod := congrArg (· % r.stripe.toNat) h
    simp only [byteAt_div hs', byteAt_mod, Nat.add_right_cancel_iff] at hdiv hmod
    rw [← Nat.div_add_mod' k r.stripe.toNat, Nat.eq_of_mul_eq_mul_right r.banks_pos hdiv, hmod,
      Nat.div_add_mod']

theorem turn_byteAt (hb : bank < r.banks) (k : Nat) : r.turn (r.byteAt bank k) = bank.toNat := by
  rw [turn]
  by_cases hs : r.stripe = 0
  · rw [if_pos hs, toNat_bank_of_single (banks_of_unstriped hs) hb]
  · rw [if_neg hs, byteAt_div (Word.toNat_pos hs), Nat.mul_add_mod_self_right,
      Nat.mod_eq_of_lt (UInt64.lt_iff_toNat_lt.mp hb)]

/-- Every offset of a bank's turns is one of its bytes. -/
theorem exists_byteAt (hb : bank < r.banks) {offset : Nat} (h : r.turn offset = bank.toNat) :
    ∃ k, r.byteAt bank k = offset := by
  by_cases hs : r.stripe = 0
  · exact ⟨offset, byteAt_of_single (banks_of_unstriped hs) hb offset⟩
  · have hs' := Word.toNat_pos hs
    rw [turn, if_neg hs] at h
    let q := offset / r.stripe.toNat
    let x := offset % r.stripe.toNat
    have hx : x < r.stripe.toNat := Nat.mod_lt offset hs'
    refine ⟨q / r.banks.toNat * r.stripe.toNat + x, ?_⟩
    rw [byteAt, Nat.mul_add_mod_self_right, Nat.mod_eq_of_lt hx, stripe_of_byte hx, ← h,
      Nat.div_add_mod', Nat.div_add_mod']

/-- If no stripe is cut short, the bytes of a bank that lie in the region are as many as its size
says. -/
theorem byteAt_lt_iff (h : r.ComesOutEven) (hb : bank < r.banks) (k : Nat) :
    r.byteAt bank k < r.totalSize.toNat ↔ k < r.bankSize.toNat := by
  by_cases hone : r.banks = 1
  · have hone' : r.banks.toNat = 1 := congrArg UInt64.toNat hone
    rw [byteAt_of_single hone hb, toNat_totalSize, hone', Nat.mul_one]
  · obtain ⟨hs, stripes, hd⟩ := h.whole hone
    have hs' := Word.toNat_pos hs
    have hb' := UInt64.lt_iff_toNat_lt.mp hb
    have hrounds : k / r.stripe.toNat * r.banks.toNat + bank.toNat < stripes * r.banks.toNat ↔
        k / r.stripe.toNat < stripes := by
      rw [← Nat.div_lt_iff_lt_mul r.banks_pos, stripe_of_byte hb']
    rw [toNat_totalSize, hd, Nat.mul_assoc, Nat.mul_comm r.stripe.toNat (stripes * _),
      ← Nat.div_lt_iff_lt_mul hs', byteAt_div hs', hrounds, Nat.div_lt_iff_lt_mul hs',
      Nat.mul_comm stripes]

theorem byteAt_zero : r.byteAt bank 0 = bank.toNat * r.stripe.toNat := by
  rw [byteAt, Nat.zero_div, Nat.zero_mul, Nat.zero_add, Nat.zero_mod, Nat.add_zero]

/-- If no stripe is cut short, the last byte of a bank ends its last stripe. -/
theorem byteAt_last (h : r.ComesOutEven) (hb : bank < r.banks) :
    r.byteAt bank (r.bankSize.toNat - 1) + r.behind bank + 1 = r.totalSize.toNat := by
  have hpos := Word.toNat_pos r.bankSize_ne
  rw [toNat_totalSize, behind]
  by_cases hone : r.banks = 1
  · have hone' : r.banks.toNat = 1 := congrArg UInt64.toNat hone
    rw [byteAt_of_single hone hb, hone', toNat_bank_of_single hone hb, Nat.zero_mul, Nat.mul_one]
    omega
  · obtain ⟨hs, stripes, hd⟩ := h.whole hone
    have hs' := Word.toNat_pos hs
    have hb' := UInt64.lt_iff_toNat_lt.mp hb
    obtain ⟨before, rfl⟩ : ∃ before, stripes = before + 1 :=
      Nat.exists_eq_succ_of_ne_zero fun hz => by rw [hd, hz] at hpos; exact Nat.lt_irrefl 0 hpos
    have hx : r.stripe.toNat - 1 < r.stripe.toNat := by omega
    have hlast : r.bankSize.toNat - 1 = before * r.stripe.toNat + (r.stripe.toNat - 1) := by
      rw [hd, Nat.mul_succ, Nat.mul_comm before]
      omega
    have hrounds : before * r.banks.toNat + bank.toNat + (r.banks.toNat - bank.toNat - 1) + 1 =
        (before + 1) * r.banks.toNat := by
      rw [Nat.succ_mul]
      omega
    calc r.byteAt bank (r.bankSize.toNat - 1) +
          (r.banks.toNat - bank.toNat - 1) * r.stripe.toNat + 1
      _ = (before * r.banks.toNat + bank.toNat) * r.stripe.toNat +
          (r.banks.toNat - bank.toNat - 1) * r.stripe.toNat + r.stripe.toNat := by
        rw [hlast, byteAt, stripe_of_byte hx, Nat.mul_add_mod_self_right, Nat.mod_eq_of_lt hx]
        omega
      _ = (before + 1) * r.banks.toNat * r.stripe.toNat := by
        rw [← hrounds, ← Nat.add_mul, ← Nat.succ_mul]
      _ = r.bankSize.toNat * r.banks.toNat := by
        rw [hd]
        ring

end Bytes

section Even

variable (h : r.ComesOutEven)

include h

/-- If no stripe is cut short, a bank owns the offsets of its turns. -/
theorem owns_iff (hb : bank < r.banks) (offset : UInt64) :
    r.Owns bank offset ↔ offset < r.totalSize ∧ r.turn offset.toNat = bank.toNat := by
  obtain ⟨first, last, he, _⟩ := exists_envelope h.hasRoom hb
  have howns : (⟨first, last, r.stripe, r.step⟩ : AddressRange).owns offset = true ↔
      offset.toNat < r.totalSize.toNat ∧ r.turn offset.toNat = bank.toNat :=
    owns_iff_turn h hb he (Nat.zero_add _).symm (Nat.zero_add _).symm rfl rfl
      (Nat.zero_add _).symm
  rw [UInt64.lt_iff_toNat_lt, ← howns]
  constructor
  · rintro ⟨range, hr, hown⟩
    cases hr.symm.trans (rangeWithin_of_envelope he)
    exact hown
  · intro hown
    exact ⟨_, rangeWithin_of_envelope he, hown⟩

/-- Every bank owns as many offsets as its size says. -/
theorem ncard_owns (hb : bank < r.banks) :
    {offset | r.Owns bank offset}.ncard = r.bankSize.toNat := by
  have hlt : ∀ k < r.bankSize.toNat, r.byteAt bank k < UInt64.size := fun k hk =>
    Nat.lt_trans ((byteAt_lt_iff h hb k).mpr hk) (Word.lt_size r.totalSize)
  have himage : {offset | r.Owns bank offset} =
      (fun k => UInt64.ofNat (r.byteAt bank k)) '' (Finset.range r.bankSize.toNat : Set Nat) := by
    ext offset
    simp only [Set.mem_ofPred_eq, Set.mem_image, Finset.coe_range, Set.mem_Iio, owns_iff h hb]
    constructor
    · rintro ⟨hin, hturn⟩
      obtain ⟨k, hk⟩ := exists_byteAt hb hturn
      refine ⟨k, ?_, by rw [hk, UInt64.ofNat_toNat]⟩
      rw [← byteAt_lt_iff h hb, hk]
      exact UInt64.lt_iff_toNat_lt.mp hin
    · rintro ⟨k, hk, rfl⟩
      rw [UInt64.lt_iff_toNat_lt, UInt64.toNat_ofNat_of_lt' (hlt k hk)]
      exact ⟨(byteAt_lt_iff h hb k).mpr hk, turn_byteAt hb k⟩
  have hinj : Set.InjOn (fun k => UInt64.ofNat (r.byteAt bank k))
      (Finset.range r.bankSize.toNat : Set Nat) := by
    intro k hk k' hk' heq
    simp only [Finset.coe_range, Set.mem_Iio] at hk hk'
    have hword := congrArg UInt64.toNat heq
    have hk := UInt64.toNat_ofNat_of_lt' (hlt k hk)
    have hk' := UInt64.toNat_ofNat_of_lt' (hlt k' hk')
    exact byteAt_injective hb (hk.symm.trans (hword.trans hk'))
  rw [himage, hinj.ncard_image, Set.ncard_coe_finset, Finset.card_range]

/-- The range of a bank runs from its first byte to its last. -/
theorem ends_of_range {range : AddressRange} (hr : r.rangeWithin bank = .ok range) :
    IsLeast {offset | r.Owns bank offset} range.start ∧
      IsGreatest {offset | r.Owns bank offset} range.last := by
  obtain ⟨first, last, he, hb, rfl⟩ := exists_of_rangeWithin hr
  obtain ⟨_, hf, hl⟩ := ends_of_envelope he
  have hpos := Word.toNat_pos r.bankSize_ne
  have hfirst : first.toNat = r.byteAt bank 0 := by rw [hf, byteAt_zero]
  have hend := byteAt_last h hb
  have hlast : last.toNat = r.byteAt bank (r.bankSize.toNat - 1) := by omega
  have hbyte : ∀ {offset : UInt64} {k : Nat}, offset.toNat = r.byteAt bank k →
      k < r.bankSize.toNat → r.Owns bank offset := by
    intro offset k hk hlt
    rw [owns_iff h hb, UInt64.lt_iff_toNat_lt, hk]
    exact ⟨(byteAt_lt_iff h hb k).mpr hlt, turn_byteAt hb k⟩
  -- nothing outside the envelope is owned
  have hbounds : ∀ offset, r.Owns bank offset → first ≤ offset ∧ offset ≤ last := by
    rintro offset ⟨range, hr', hown⟩
    cases hr'.symm.trans hr
    obtain ⟨hlo, hhi, _⟩ := (AddressRange.owns_iff _ _).mp hown
    exact ⟨UInt64.le_iff_toNat_le.mpr hlo, UInt64.le_iff_toNat_le.mpr hhi⟩
  exact ⟨⟨hbyte hfirst hpos, fun offset ho => (hbounds offset ho).1⟩,
    ⟨hbyte hlast (by omega), fun offset ho => (hbounds offset ho).2⟩⟩

end Even

/-- A bank of the region has a range, or counting the stripes behind it leaves the word. -/
theorem rangeWithin_or_underflow (hb : bank < r.banks) :
    (∃ range, r.rangeWithin bank = .ok range) ∨
      r.rangeWithin bank = .error (.fault .subtraction) := by
  rcases Nat.lt_or_ge (r.behind bank) r.totalSize.toNat with hroom | hroom
  · obtain ⟨first, last, he, _⟩ := envelope_of_room hb hroom
    exact Or.inl ⟨_, rangeWithin_of_envelope he⟩
  · right
    rw [rangeWithin, envelope_of_no_room hb hroom]
    rfl

/-- If stripes are cut short, some offset has no owner. -/
theorem exists_unowned (h : ¬ r.ComesOutEven) :
    ∃ offset, offset < r.totalSize ∧ ∀ bank, ¬ r.Owns bank offset := by
  have hs : r.stripe ≠ 0 := fun hz => h (Or.inl hz)
  have hone : r.banks ≠ 1 := fun hone => h (Or.inr (Or.inl hone))
  have hd : ¬ r.stripe.toNat ∣ r.bankSize.toNat := fun hd => h (Or.inr (Or.inr hd))
  have hbanks : 1 < r.banks.toNat := by
    have hpos := r.banks_pos
    have hne : r.banks.toNat ≠ 1 := fun he => hone (UInt64.toNat_inj.mp he)
    omega
  obtain ⟨o, hlt, hcut, hturn⟩ := exists_cut_stripe (Word.toNat_pos hs) hbanks hd
  rw [← toNat_totalSize] at hlt hcut
  have ho : (UInt64.ofNat o).toNat = o :=
    UInt64.toNat_ofNat_of_lt' (Nat.lt_trans hlt (Word.lt_size r.totalSize))
  refine ⟨UInt64.ofNat o, by rw [UInt64.lt_iff_toNat_lt, ho]; exact hlt, fun bank hown => ?_⟩
  obtain ⟨hbank, hroom⟩ := turn_of_owns hown
  rw [ho] at hbank hroom
  rw [turn, if_neg hs] at hbank
  -- a stripe of a later bank would have to follow
  have hbehind : 1 * r.stripe.toNat ≤ r.behind bank := Nat.mul_le_mul_right _ (by omega)
  omega

theorem sharedOut (h : r.ComesOutEven) : r.SharedOut := by
  refine ⟨fun bank hb => ?_, fun offset hlt => ?_, fun offset hle bank hown => ?_,
    fun bank hb => ncard_owns h hb, fun bank range hr => ends_of_range h hr⟩
  · obtain ⟨first, last, he, _⟩ := exists_envelope h.hasRoom hb
    exact ⟨_, rangeWithin_of_envelope he⟩
  · have hturn := r.turn_lt offset.toNat
    have hbank := UInt64.toNat_ofNat_of_lt' (Nat.lt_trans hturn (Word.lt_size r.banks))
    have hb : UInt64.ofNat (r.turn offset.toNat) < r.banks := by
      rw [UInt64.lt_iff_toNat_lt, hbank]
      exact hturn
    have hown := (owns_iff h hb offset).mpr ⟨hlt, hbank.symm⟩
    refine ⟨_, hb, hbank, fun b => ⟨fun hb' => owner_unique hb' hown, ?_⟩⟩
    rintro rfl
    exact hown
  · have hin := ((owns_iff h (lt_banks_of_owns hown) offset).mp hown).1
    exact absurd hle (UInt64.not_le.mpr hin)

/-- The region that is described is shared out by its banks exactly if no stripe is cut short, and
no offset has two owners in any case. -/
theorem sharedOut_or_gaps (bankSize stripe step : UInt64) {r : Region}
    (hmake : make bankSize stripe step = .ok r) :
    (r.bankSize = bankSize ∧ r.stripe = stripe ∧ r.step = step) ∧
      (r.ComesOutEven → r.SharedOut) ∧ (¬ r.ComesOutEven → r.LeavesGaps) ∧
        ∀ bank bank' offset, r.Owns bank offset → r.Owns bank' offset → bank = bank' :=
  ⟨eq_of_make hmake, sharedOut, fun h => ⟨fun _ => rangeWithin_or_underflow, exists_unowned h⟩,
    fun _ _ _ => owner_unique⟩

theorem sharedOut_or_gaps_four_banks :
    (∃ r, make 256 64 256 = .ok r ∧ r.SharedOut) ∧ ∃ r, make 100 64 256 = .ok r ∧ r.LeavesGaps := by
  constructor
  · refine ⟨⟨256, 64, 256, by decide, by decide, by decide⟩, rfl, ?_⟩
    exact (sharedOut_or_gaps 256 64 256 rfl).2.1 (Or.inr (Or.inr (by decide)))
  · refine ⟨⟨100, 64, 256, by decide, by decide, by decide⟩, rfl, ?_⟩
    exact (sharedOut_or_gaps 100 64 256 rfl).2.2.1
      fun h => by rcases h with h | h | h <;> exact absurd h (by decide)

end Region

end TieredMemory
