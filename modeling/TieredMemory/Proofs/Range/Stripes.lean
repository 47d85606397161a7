import TieredMemory.Range.Region
import TieredMemory.Proofs.Word

/-!
# Whose turn it is

Of a region whose banks are made of whole stripes, the offset says whose turn it is: the number of
stripes before it, counted round the banks. The envelope of a bank and the distance of its stripes
pick exactly the offsets at which it is the bank's turn.
-/
set_option autoImplicit false

namespace TieredMemory

/-- Counting bytes from a bank's first stripe on, the first of every `n` stripes is the bank's. -/
theorem stripe_test_iff {s n b o : Nat} (hs : 0 < s) (hb : b < n) :
    (b * s ≤ o ∧ (o - b * s) % (s * n) < s) ↔ o / s % n = b := by
  have hfirst : b * s ≤ o ↔ b ≤ o / s := (Nat.le_div_iff_mul_le hs).symm
  have hstripe : (o - b * s) % (s * n) < s ↔ (o / s - b) % n = 0 := by
    rw [← Nat.div_eq_zero_iff_lt hs, Nat.mod_mul_right_div_self, Nat.mul_comm b,
      Nat.sub_mul_div]
  rw [hfirst, hstripe]
  constructor
  · rintro ⟨hle, hmod⟩
    have hd := Nat.div_add_mod (o / s - b) n
    have hq : o / s = b + n * ((o / s - b) / n) := by omega
    rw [hq, Nat.add_mul_mod_self_left, Nat.mod_eq_of_lt hb]
  · rintro rfl
    have hd := Nat.div_add_mod (o / s) n
    have hsub : o / s - o / s % n = n * (o / s / n) := by omega
    exact ⟨Nat.mod_le _ n, by rw [hsub, Nat.mul_mod_right]⟩

/-- In a region of whole stripes a bank's stripe is followed by one of every later bank. -/
theorem room_behind_iff {s n k o : Nat} (hs : 0 < s) (hn : 0 < n) :
    o + (n - o / s % n - 1) * s < s * k * n ↔ o < s * k * n := by
  have hlast : o + (n - o / s % n - 1) * s < s * k * n ↔ o / s + (n - o / s % n - 1) < k * n := by
    rw [← Nat.add_mul_div_right o _ hs, Nat.div_lt_iff_lt_mul hs, Nat.mul_comm (k * n),
      Nat.mul_assoc]
  have htotal : o < s * k * n ↔ o / s < k * n := by
    rw [Nat.div_lt_iff_lt_mul hs, Nat.mul_comm (k * n), Nat.mul_assoc]
  rw [hlast, htotal]
  constructor
  · intro h
    omega
  · intro h
    have hd := Nat.div_add_mod (o / s) n
    have hm := Nat.mod_lt (o / s) hn
    have hround : o / s / n < k := Nat.div_lt_of_lt_mul (by rwa [Nat.mul_comm])
    have hrounds : n * (o / s / n) + n ≤ k * n := by
      rw [← Nat.mul_succ, Nat.mul_comm k]
      exact Nat.mul_le_mul_left n hround
    omega

theorem AddressRange.owns_iff (range : AddressRange) (a : UInt64) :
    range.owns a = true ↔ range.start.toNat ≤ a.toNat ∧ a.toNat ≤ range.last.toNat ∧
      (range.stripe = 0 ∨ range.step = 0 ∨
        (a.toNat - range.start.toNat) % range.step.toNat < range.stripe.toNat) := by
  unfold owns
  by_cases hin : range.start.toNat ≤ a.toNat ∧ a.toNat ≤ range.last.toNat
  · obtain ⟨hstart, hlast⟩ := hin
    have hc : (a < range.start || range.last < a) = false := by
      simp [UInt64.lt_iff_toNat_lt, hstart, hlast]
    rw [hc]
    simp only [Bool.false_eq_true, ↓reduceIte, hstart, hlast, true_and]
    split
    · next hz => simp [hz]
    · next hz =>
      split
      · next hs => simp [hs]
      · next hs =>
        simp [hz, hs, UInt64.lt_iff_toNat_lt, Word.toNat_sub_of_le hstart]
  · have hc : (a < range.start || range.last < a) = true := by
      simp only [Bool.or_eq_true, decide_eq_true_eq, UInt64.lt_iff_toNat_lt]
      omega
    rw [hc]
    simp only [↓reduceIte, Bool.false_eq_true, false_iff]
    exact fun h => hin ⟨h.1, h.2.1⟩

namespace Region

variable (r : Region)

theorem banks_pos : 0 < r.banks.toNat := by
  have hw := r.step_whole
  unfold banks stripedBanks
  unfold WholeStep at hw
  split
  · decide
  · next hs =>
    rw [dif_neg hs] at hw
    rw [Word.toNat_div]
    exact Nat.div_pos (UInt64.le_iff_toNat_le.mp hw.1) (Word.toNat_pos hs)

theorem toNat_totalSize : r.totalSize.toNat = r.bankSize.toNat * r.banks.toNat :=
  Word.toNat_mul_of_lt r.fits

/-- The step is the stripe taken once for each bank. -/
theorem toNat_step {r : Region} (hs : r.stripe ≠ 0) :
    r.step.toNat = r.stripe.toNat * r.banks.toNat := by
  have hw := r.step_whole
  unfold WholeStep at hw
  rw [dif_neg hs] at hw
  have hz : r.step.toNat % r.stripe.toNat = 0 := by
    rw [← Word.toNat_rem _ _ hs, hw.2]
    rfl
  rw [banks, stripedBanks, dif_neg hs, Word.toNat_div,
    Nat.mul_div_cancel' (Nat.dvd_of_mod_eq_zero hz)]

theorem banks_of_unstriped {r : Region} (hs : r.stripe = 0) : r.banks = 1 := by
  rw [banks, stripedBanks, dif_pos hs]

theorem eq_of_make {r : Region} {bankSize stripe step : UInt64}
    (h : make bankSize stripe step = .ok r) :
    r.bankSize = bankSize ∧ r.stripe = stripe ∧ r.step = step := by
  unfold make at h
  split at h
  · cases h
  · split at h
    · split at h
      · cases h
        exact ⟨rfl, rfl, rfl⟩
      · cases h
    · cases h

/-- The bank whose turn it is at an offset. -/
def turn (offset : Nat) : Nat :=
  if r.stripe = 0 then 0 else offset / r.stripe.toNat % r.banks.toNat

theorem turn_lt (offset : Nat) : r.turn offset < r.banks.toNat := by
  unfold turn
  split
  · exact r.banks_pos
  · exact Nat.mod_lt _ r.banks_pos

/-- Banks end where stripes end. -/
def WholeStripes : Prop := r.stripe = 0 ∨ r.stripe.toNat ∣ r.bankSize.toNat

/-- No stripe is cut short: one bank has them all, or banks are made of whole ones. -/
def ComesOutEven : Prop := r.stripe = 0 ∨ r.banks = 1 ∨ r.stripe.toNat ∣ r.bankSize.toNat

/-- One stripe for each bank but one is less than the region. -/
def HasRoom : Prop := (r.banks.toNat - 1) * r.stripe.toNat < r.totalSize.toNat

variable {r} {bank : UInt64}

theorem WholeStripes.comesOutEven (hw : r.WholeStripes) : r.ComesOutEven := hw.imp_right Or.inr

/-- Several banks only come out even if they are striped, in whole stripes. -/
theorem ComesOutEven.whole (h : r.ComesOutEven) (hone : r.banks ≠ 1) :
    r.stripe ≠ 0 ∧ r.stripe.toNat ∣ r.bankSize.toNat := by
  have hs : r.stripe ≠ 0 := fun hz => hone (banks_of_unstriped hz)
  exact ⟨hs, (h.resolve_left hs).resolve_left hone⟩

/-- Some stripes of different banks, one each, lie in a step and so in a word. -/
theorem stripes_lt_size {r : Region} {k : Nat} (hk : k ≤ r.banks.toNat) :
    k * r.stripe.toNat < UInt64.size := by
  by_cases hs : r.stripe = 0
  · have hz : r.stripe.toNat = 0 := congrArg UInt64.toNat hs
    rw [hz, Nat.mul_zero]
    decide
  · have hstep := Word.lt_size r.step
    rw [toNat_step hs, Nat.mul_comm] at hstep
    exact Nat.lt_of_le_of_lt (Nat.mul_le_mul_right _ hk) hstep

variable (r bank) in
/-- The bytes of one stripe for each bank after this one. -/
def behind : Nat := (r.banks.toNat - bank.toNat - 1) * r.stripe.toNat

/-- Only the subtractions from the size of the region can leave the word. -/
theorem envelope_eq (hb : bank < r.banks) :
    ∃ behind : UInt64, behind.toNat = r.behind bank ∧ r.envelope bank = Failure.ofFault do
      let stop ← Word.sub r.totalSize behind
      let last ← Word.sub stop 1
      return (bank * r.stripe, last) := by
  have hb' := UInt64.lt_iff_toNat_lt.mp hb
  have hone : (1 : UInt64).toNat = 1 := rfl
  have hafter : (r.banks - bank).toNat = r.banks.toNat - bank.toNat :=
    Word.toNat_sub_of_le (Nat.le_of_lt hb')
  have hafter1 : (r.banks - bank - 1).toNat = r.banks.toNat - bank.toNat - 1 := by
    rw [Word.toNat_sub_of_le (by omega), hafter, hone]
  have hfirst : bank.toNat * r.stripe.toNat < UInt64.size := stripes_lt_size (Nat.le_of_lt hb')
  have hbehind : (r.banks - bank - 1).toNat * r.stripe.toNat < UInt64.size :=
    stripes_lt_size (by omega)
  refine ⟨(r.banks - bank - 1) * r.stripe, ?_, ?_⟩
  · rw [Word.toNat_mul_of_lt hbehind, hafter1, behind]
  · rw [envelope, if_neg (UInt64.not_le.mpr hb), Word.mul_eq_ok hfirst,
      Word.sub_eq_ok (Nat.le_of_lt hb')]
    show Failure.ofFault (Word.sub (r.banks - bank) 1 >>= _) = _
    rw [Word.sub_eq_ok (by omega)]
    show Failure.ofFault (Word.mul (r.banks - bank - 1) r.stripe >>= _) = _
    rw [Word.mul_eq_ok hbehind]
    rfl

/-- A region that reaches past the stripes behind a bank's last one has an envelope for the bank. -/
theorem envelope_of_room (hb : bank < r.banks) (hroom : r.behind bank < r.totalSize.toNat) :
    ∃ first last, r.envelope bank = .ok (first, last) ∧
      first.toNat = bank.toNat * r.stripe.toNat ∧
      last.toNat + r.behind bank + 1 = r.totalSize.toNat := by
  obtain ⟨behind, hbehind, he⟩ := envelope_eq hb
  have hb' := UInt64.lt_iff_toNat_lt.mp hb
  have hone : (1 : UInt64).toNat = 1 := rfl
  have hstop : (r.totalSize - behind).toNat = r.totalSize.toNat - behind.toNat :=
    Word.toNat_sub_of_le (by omega)
  have hlast : (r.totalSize - behind - 1).toNat = r.totalSize.toNat - behind.toNat - 1 := by
    rw [Word.toNat_sub_of_le (by omega), hstop, hone]
  refine ⟨bank * r.stripe, r.totalSize - behind - 1, ?_,
    Word.toNat_mul_of_lt (stripes_lt_size (Nat.le_of_lt hb')), by omega⟩
  rw [he, Word.sub_eq_ok (by omega)]
  show Failure.ofFault (Word.sub (r.totalSize - behind) 1 >>= _) = _
  rw [Word.sub_eq_ok (by omega)]
  rfl

/-- Where the stripes behind a bank's last one are the whole region or more, a step of the envelope
leaves the word. -/
theorem envelope_of_no_room (hb : bank < r.banks) (hroom : r.totalSize.toNat ≤ r.behind bank) :
    r.envelope bank = .error (.fault .subtraction) := by
  obtain ⟨behind, hbehind, he⟩ := envelope_eq hb
  rw [he]
  by_cases hle : behind.toNat ≤ r.totalSize.toNat
  · have hstop : (r.totalSize - behind).toNat = 0 := by
      rw [Word.toNat_sub_of_le hle]
      omega
    have hone : ¬ (1 : UInt64).toNat ≤ (r.totalSize - behind).toNat := by
      rw [hstop]
      decide
    rw [Word.sub_eq_ok hle]
    show Failure.ofFault (Word.sub (r.totalSize - behind) 1 >>= _) = _
    rw [Word.sub, if_neg hone]
    rfl
  · rw [Word.sub, if_neg hle]
    rfl

/-- What is known of an envelope from its being there. -/
theorem ends_of_envelope {first last : UInt64} (he : r.envelope bank = .ok (first, last)) :
    bank < r.banks ∧ first.toNat = bank.toNat * r.stripe.toNat ∧
      last.toNat + r.behind bank + 1 = r.totalSize.toNat := by
  by_cases hb : r.banks ≤ bank
  · rw [envelope, if_pos hb] at he
    cases he
  · have hb := UInt64.not_le.mp hb
    rcases Nat.lt_or_ge (r.behind bank) r.totalSize.toNat with hroom | hroom
    · obtain ⟨_, _, he', hf, hl⟩ := envelope_of_room hb hroom
      cases he'.symm.trans he
      exact ⟨hb, hf, hl⟩
    · cases (envelope_of_no_room hb hroom).symm.trans he

/-- The stripes of all other banks, one each, come before or behind a bank's. -/
theorem stripes_around (hb : bank < r.banks) :
    bank.toNat * r.stripe.toNat + r.behind bank = (r.banks.toNat - 1) * r.stripe.toNat := by
  have hb' := UInt64.lt_iff_toNat_lt.mp hb
  rw [behind, ← Nat.add_mul]
  congr 1
  omega

theorem hasRoom_of_single (hone : r.banks = 1) : r.HasRoom := by
  have hone' : r.banks.toNat = 1 := congrArg UInt64.toNat hone
  rw [HasRoom, toNat_totalSize, hone', Nat.sub_self, Nat.zero_mul, Nat.mul_one]
  exact Word.toNat_pos r.bankSize_ne

/-- Banks that hold a stripe leave room. -/
theorem hasRoom_of_stripe_le (h : r.stripe ≤ r.bankSize) : r.HasRoom := by
  have hpos := Word.toNat_pos r.bankSize_ne
  rw [HasRoom, toNat_totalSize]
  calc (r.banks.toNat - 1) * r.stripe.toNat
    _ ≤ (r.banks.toNat - 1) * r.bankSize.toNat :=
      Nat.mul_le_mul_left _ (UInt64.le_iff_toNat_le.mp h)
    _ < r.banks.toNat * r.bankSize.toNat :=
      Nat.mul_lt_mul_of_pos_right (Nat.sub_one_lt_of_lt r.banks_pos) hpos
    _ = r.bankSize.toNat * r.banks.toNat := Nat.mul_comm _ _

theorem ComesOutEven.hasRoom (h : r.ComesOutEven) : r.HasRoom := by
  by_cases hone : r.banks = 1
  · exact hasRoom_of_single hone
  · have hle := Nat.le_of_dvd (Word.toNat_pos r.bankSize_ne) (h.whole hone).2
    exact hasRoom_of_stripe_le (UInt64.le_iff_toNat_le.mpr hle)

/-- With room, no step of an envelope leaves the word. -/
theorem exists_envelope (h : r.HasRoom) (hb : bank < r.banks) :
    ∃ first last, r.envelope bank = .ok (first, last) ∧
      first.toNat = bank.toNat * r.stripe.toNat ∧
      last.toNat + r.behind bank + 1 = r.totalSize.toNat ∧ first.toNat ≤ last.toNat := by
  have hsum := stripes_around hb
  unfold HasRoom at h
  obtain ⟨first, last, he, hf, hl⟩ := envelope_of_room hb (by omega)
  exact ⟨first, last, he, hf, hl, by omega⟩

/-- If no stripe is cut short, an offset in the region has room behind it. -/
theorem room_iff_lt (h : r.ComesOutEven) {offset : Nat} (hturn : r.turn offset = bank.toNat) :
    offset + r.behind bank < r.totalSize.toNat ↔ offset < r.totalSize.toNat := by
  rw [behind]
  by_cases hone : r.banks = 1
  · have hone' : r.banks.toNat = 1 := congrArg UInt64.toNat hone
    have hlater : r.banks.toNat - bank.toNat - 1 = 0 := by omega
    rw [hlater, Nat.zero_mul, Nat.add_zero]
  · obtain ⟨hs, stripes, hd⟩ := h.whole hone
    rw [← hturn, turn, if_neg hs, toNat_totalSize, hd]
    exact room_behind_iff (Word.toNat_pos hs) r.banks_pos

/-- A bank whose range starts at `base` owns the offsets at which it is its turn and which leave
room for the stripes behind. -/
theorem owns_iff_turn_of_room (hb : bank < r.banks) {first last : UInt64}
    (he : r.envelope bank = .ok (first, last)) {base : Nat} {range : AddressRange}
    (hstart : range.start.toNat = base + first.toNat)
    (hlast : range.last.toNat = base + last.toNat) (hstripe : range.stripe = r.stripe)
    (hstep : range.step = r.step) {a : UInt64} {offset : Nat} (ha : a.toNat = base + offset) :
    range.owns a = true ↔
      r.turn offset = bank.toNat ∧ offset + r.behind bank < r.totalSize.toNat := by
  have hb' := UInt64.lt_iff_toNat_lt.mp hb
  obtain ⟨_, hf, hl⟩ := ends_of_envelope he
  rw [AddressRange.owns_iff, hstart, hlast, hstripe, hstep, ha, turn]
  by_cases hs : r.stripe = 0
  · rw [if_pos hs]
    have hz : r.stripe.toNat = 0 := congrArg UInt64.toNat hs
    rw [hz, Nat.mul_zero] at hf
    rw [banks_of_unstriped hs] at hb'
    have hbank : bank.toNat = 0 := Nat.lt_one_iff.mp hb'
    simp only [hs, true_or, and_true]
    omega
  · have hstep0 : r.step ≠ 0 := by
      intro hz
      have h := toNat_step hs
      rw [hz] at h
      have hpos := Nat.mul_pos (Word.toNat_pos hs) r.banks_pos
      rw [← h] at hpos
      exact Nat.lt_irrefl 0 hpos
    simp only [hs, hstep0, false_or, ↓reduceIte]
    rw [toNat_step hs, hf, Nat.add_sub_add_left, ← stripe_test_iff (Word.toNat_pos hs) hb']
    omega

/-- If no stripe is cut short, a bank whose range starts at `base` owns exactly the offsets at which
it is its turn. -/
theorem owns_iff_turn (h : r.ComesOutEven) (hb : bank < r.banks) {first last : UInt64}
    (he : r.envelope bank = .ok (first, last)) {base : Nat} {range : AddressRange}
    (hstart : range.start.toNat = base + first.toNat)
    (hlast : range.last.toNat = base + last.toNat) (hstripe : range.stripe = r.stripe)
    (hstep : range.step = r.step) {a : UInt64} {offset : Nat} (ha : a.toNat = base + offset) :
    range.owns a = true ↔ offset < r.totalSize.toNat ∧ r.turn offset = bank.toNat := by
  rw [owns_iff_turn_of_room hb he hstart hlast hstripe hstep ha, And.comm]
  exact and_congr_left (room_iff_lt h)

end Region

end TieredMemory
