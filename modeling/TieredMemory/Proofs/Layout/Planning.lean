import TieredMemory.Proofs.Layout

/-!
# Which topologies have a layout

Planning accepts a topology exactly if no level is empty and the widths of the three levels fit the
bits that are left for them; the refusals that would come later cannot occur. Widths and positions
are plain numbers here. The same steps in 32-bit arithmetic, with each width counted from the
leading zeros, never leave 32 bits and give the same answer.
-/
set_option autoImplicit false

namespace TieredMemory

theorem ok_bind {ε α β : Type} (a : α) (f : α → Except ε β) : (Except.ok a >>= f) = f a := rfl

theorem Failure.ofError_bind {ε α β : Type} (x : Except ε α) (f : α → Except ε β) :
    Failure.ofError (x >>= f) = Failure.ofError x >>= fun a => Failure.ofError (f a) := by
  cases x <;> rfl

/-! ## Arithmetic of positions -/

namespace Position

/-- Positions and widths are counted in 32 bits. -/
def limit : Nat := 2 ^ 32

def add (a b : Nat) : Except ArithmeticFault Nat :=
  if a + b < limit then .ok (a + b) else .error .addition

def sub (a b : Nat) : Except ArithmeticFault Nat :=
  if b ≤ a then .ok (a - b) else .error .subtraction

theorem add_eq_ok {a b : Nat} (h : a + b < limit) : add a b = .ok (a + b) := if_pos h

theorem sub_eq_ok {a b : Nat} (h : b ≤ a) : sub a b = .ok (a - b) := if_pos h

end Position

/-- The zeros above the highest one of a word. -/
def Word.leadingZeros (w : UInt64) : Nat := w.toBitVec.clz.toNat

theorem Word.leadingZeros_le (w : UInt64) : leadingZeros w ≤ 64 :=
  BitVec.le_def.mp (BitVec.clz_le (x := w.toBitVec))

/-- What is not leading zeros is as wide as the word needs. -/
theorem Word.sub_leadingZeros_le_iff (w : UInt64) (n : Nat) :
    64 - leadingZeros w ≤ n ↔ w.toNat < 2 ^ n := by
  have hlt : w.toNat < 2 ^ (64 - leadingZeros w) :=
    BitVec.toNat_lt_two_pow_sub_clz (x := w.toBitVec)
  constructor
  · intro h
    exact Nat.lt_of_lt_of_le hlt (Nat.pow_le_pow_right Nat.two_pos h)
  · intro h
    by_cases hz : w.toBitVec = 0#64
    · have hclz : leadingZeros w = 64 :=
        congrArg BitVec.toNat (BitVec.clz_eq_iff_eq_zero.mpr hz)
      omega
    · have hle : 2 ^ (64 - 1 - leadingZeros w) ≤ w.toNat :=
        BitVec.two_pow_sub_clz_le_toNat_of_ne_zero (by decide) hz
      have hpow := (Nat.pow_lt_pow_iff_right Nat.one_lt_two).mp (Nat.lt_of_le_of_lt hle h)
      omega

/-- The width of a level, counted from the top of the word. -/
def idBitsChecked (count : UInt64) : Except ArithmeticFault Nat :=
  Position.sub 64 (Word.leadingZeros (if count = 0 then 0 else count - 1))

theorem idBitsChecked_eq (count : UInt64) : idBitsChecked count = .ok (idBits count) := by
  have hiff : ∀ n, 64 - Word.leadingZeros (if count = 0 then 0 else count - 1) ≤ n ↔
      idBits count ≤ n := by
    intro n
    rw [Word.sub_leadingZeros_le_iff, idBits_le_iff]
    have hpow := Nat.two_pow_pos n
    by_cases hz : count = 0
    · rw [if_pos hz, hz]
      exact iff_of_true hpow (Nat.zero_le _)
    · rw [if_neg hz, Word.toNat_sub_one hz]
      omega
  rw [idBitsChecked, Position.sub_eq_ok (Word.leadingZeros_le _)]
  exact congrArg Except.ok (eq_of_forall_ge_iff hiff)

theorem idBits_le (count : UInt64) : idBits count ≤ 64 :=
  (idBits_le_iff count 64).mpr (Nat.le_of_lt (Word.lt_size count))

namespace Bitfield

/-- The field from `lo` up to but not including `top`. -/
def ofEnds? (lo top : Nat) : Option Bitfield :=
  if h : lo ≤ top ∧ 0 < top ∧ top ≤ 64 then some ⟨lo, top, h.1, h.2.1, h.2.2⟩ else none

/-- `below?` with the lowest bit as a checked difference. -/
def belowChecked (top width : Nat) : Except ArithmeticFault (Option Bitfield) :=
  if 0 < top ∧ top ≤ 64 ∧ width ≤ top then (Position.sub top width).map fun lo => ofEnds? lo top
  else .ok none

theorem belowChecked_eq (top width : Nat) : belowChecked top width = .ok (below? top width) := by
  unfold belowChecked below?
  by_cases h : 0 < top ∧ top ≤ 64 ∧ width ≤ top
  · rw [if_pos h, dif_pos h, Position.sub_eq_ok h.2.2]
    show Except.ok (ofEnds? (top - width) top) = _
    rw [ofEnds?, dif_pos ⟨Nat.sub_le _ _, h.1, h.2.1⟩]
  · rw [if_neg h, dif_neg h]

end Bitfield

namespace Layout

def placeBelowChecked (top width : Nat) : Except (Failure AddressError) Bitfield := do
  match ← Failure.ofFault (Bitfield.belowChecked top width) with
  | some f => .ok f
  | none => .error (.error (.doesNotFitBelow width top))

theorem placeBelowChecked_eq (top width : Nat) :
    placeBelowChecked top width = Failure.ofError (placeBelow top width) := by
  rw [placeBelowChecked, Bitfield.belowChecked_eq, placeBelow]
  cases Bitfield.below? top width <;> rfl

/-- Planning with every sum and difference of positions checked. -/
def planChecked (t : Topology) : Except (Failure AddressError) Layout :=
  match firstEmptyLevel? t with
  | some level => .error (.error (.emptyLevel level))
  | none => do
    let pxnBits ← Failure.ofFault (idBitsChecked t.pxns)
    let podBits ← Failure.ofFault (idBitsChecked t.pods)
    let coreBits ← Failure.ofFault (idBitsChecked t.cores)
    let outerBits ← Failure.ofFault (Position.add pxnBits podBits)
    let total ← Failure.ofFault (Position.add outerBits coreBits)
    if total > idBitsAvailable then
      .error (.error (.idBudget t pxnBits podBits coreBits idBitsAvailable))
    else do
      let pxn ← placeBelowChecked isL2spFlag.lo pxnBits
      let pod ← placeBelowChecked pxn.lo podBits
      let core ← placeBelowChecked pod.lo coreBits
      let dramOffset ← placeBelowChecked pxn.lo pxn.lo
      let l2spOffset ← placeBelowChecked pod.lo pod.lo
      let layout : Layout := ⟨pxn, pod, core, dramOffset, l2spOffset⟩
      Failure.ofError layout.checkDisjoint
      return layout

/-- No step of planning leaves 32 bits. -/
theorem planChecked_eq (t : Topology) : planChecked t = Failure.ofError (plan t) := by
  unfold planChecked plan
  cases firstEmptyLevel? t with
  | some level => rfl
  | none =>
    have hx := idBits_le t.pxns
    have hp := idBits_le t.pods
    have hc := idBits_le t.cores
    have houter : idBits t.pxns + idBits t.pods < Position.limit := by
      unfold Position.limit
      omega
    have htotal : idBits t.pxns + idBits t.pods + idBits t.cores < Position.limit := by
      unfold Position.limit
      omega
    simp only [idBitsChecked_eq, Failure.ofFault_ok, ok_bind, Position.add_eq_ok houter,
      Position.add_eq_ok htotal, placeBelowChecked_eq]
    split
    · rfl
    · simp only [Failure.ofError_bind]
      rfl

/-! ## Acceptance and refusal -/

variable {t : Topology} {l : Layout}

theorem exists_placeBelow (top width : Nat) (hpos : 0 < top) (htop : top ≤ 64)
    (hwidth : width ≤ top) : ∃ f, placeBelow top width = .ok f := by
  rw [placeBelow, Bitfield.below?, dif_pos ⟨hpos, htop, hwidth⟩]
  exact ⟨_, rfl⟩

theorem overlapIn?_eq_none {mode : Mode} {tier : Tier} {fields : List Field}
    (h : fields.Pairwise fun a b => (l.field a).overlaps (l.field b) = false) :
    l.overlapIn? mode tier fields = none := by
  induction fields with
  | nil => rfl
  | cons a rest ih =>
    obtain ⟨ha, hrest⟩ := List.pairwise_cons.mp h
    have hnone : (rest.find? fun b => (l.field a).overlaps (l.field b)) = none := by
      rw [List.find?_eq_none]
      intro b hb
      rw [ha b hb]
      exact Bool.false_ne_true
    rw [overlapIn?, hnone]
    exact ih hrest

/-- Fields at their planned places pass the test for overlaps. -/
theorem Planned.checkDisjoint_eq_ok (h : Planned t l) : l.checkDisjoint = .ok () := by
  have hnone : (Mode.all.findSome? fun mode => Tier.all.findSome? fun tier =>
      (Field.encoding? mode tier).bind (l.overlapIn? mode tier)) = none := by
    rw [List.findSome?_eq_none_iff]
    intro mode _
    rw [List.findSome?_eq_none_iff]
    intro tier _
    cases he : Field.encoding? mode tier with
    | none => rfl
    | some fields => exact overlapIn?_eq_none (h.pairwise_apart he)
  rw [checkDisjoint, hnone]

theorem plan_of_empty {level : Level} (h : firstEmptyLevel? t = some level) :
    plan t = .error (.emptyLevel level) := by
  rw [plan, h]

theorem plan_of_over_budget (h : firstEmptyLevel? t = none)
    (hover : idBitsAvailable < idBits t.pxns + idBits t.pods + idBits t.cores) :
    plan t = .error
      (.idBudget t (idBits t.pxns) (idBits t.pods) (idBits t.cores) idBitsAvailable) := by
  rw [plan, h]
  exact if_pos hover

/-- Within the budget every field finds its place. -/
theorem exists_plan (h : firstEmptyLevel? t = none)
    (hbudget : idBits t.pxns + idBits t.pods + idBits t.cores ≤ idBitsAvailable) :
    ∃ l, plan t = .ok l := by
  have hb : idBits t.pxns + idBits t.pods + idBits t.cores ≤ 31 := hbudget
  have htop : isL2spFlag.lo = 61 := rfl
  obtain ⟨pxn, hx⟩ := exists_placeBelow isL2spFlag.lo (idBits t.pxns) (by decide)
    (by decide) (by omega)
  have hxp := place_of_placeBelow hx
  obtain ⟨pod, hp⟩ := exists_placeBelow pxn.lo (idBits t.pods) (by omega)
    (by omega) (by omega)
  have hpp := place_of_placeBelow hp
  obtain ⟨core, hc⟩ := exists_placeBelow pod.lo (idBits t.cores) (by omega)
    (by omega) (by omega)
  obtain ⟨dram, hd⟩ := exists_placeBelow pxn.lo pxn.lo (by omega)
    (by omega) (Nat.le_refl _)
  obtain ⟨l2sp, hl⟩ := exists_placeBelow pod.lo pod.lo (by omega)
    (by omega) (Nat.le_refl _)
  have hdp := place_of_placeBelow hd
  have hlp := place_of_placeBelow hl
  have hplanned : Planned t ⟨pxn, pod, core, dram, l2sp⟩ := {
    inhabited := (firstEmptyLevel?_eq_none_iff t).mp h
    budget := hb
    pxn := hxp
    pod := hpp
    core := place_of_placeBelow hc
    dramOffset := ⟨hdp.1, Nat.add_eq_right.mp hdp.2⟩
    l2spOffset := ⟨hlp.1, Nat.add_eq_right.mp hlp.2⟩ }
  refine ⟨⟨pxn, pod, core, dram, l2sp⟩, ?_⟩
  rw [plan, h]
  refine (if_neg (Nat.not_lt.mpr hbudget)).trans ?_
  simp only [hx, hp, hc, hd, hl, ok_bind, hplanned.checkDisjoint_eq_ok]
  rfl

/-! ## The fields of a layout -/

variable (t l) in
/-- Every field has its place in the word, and so has every value it is for. -/
structure WellPlaced : Prop where
  /-- Empty fields have a highest bit too, just below the lowest. -/
  inside : ∀ f, (l.field f).lo ≤ (l.field f).hi + 1 ∧ (l.field f).hi + 1 = (l.field f).top ∧
    (l.field f).hi < 64
  encodings : ∀ mode tier, (mode = .absolute ∨ tier.allowsRelative = true) →
    ∃ fields off, encoding tier mode = .ok fields ∧ off ∈ fields ∧
      l.offsetField tier mode = .ok (l.field off) ∧ (l.field off).lo = 0 ∧
      fields.Pairwise fun f g => ∀ i, i ∈ l.field f → i ∉ l.field g
  coordinates : ∀ level value, value < t.count level →
    (l.field (.ofLevel level)).fits value = true

theorem Planned.wellPlaced (h : Planned t l) : WellPlaced t l where
  inside f := by
    have hle := (l.field f).lo_le_top
    have hpos := (l.field f).top_pos
    have htop := (l.field f).top_le
    unfold Bitfield.hi
    omega
  encodings mode tier hform := by
    obtain ⟨fields, off, he, ho, hm⟩ : ∃ fields off, Field.encoding? mode tier = some fields ∧
        Field.offset? mode tier = some off ∧ off ∈ fields := by
      cases mode <;> cases tier <;>
        first | exact ⟨_, _, rfl, rfl, by decide⟩ | exact absurd hform (by decide)
    refine ⟨fields, off, by rw [encoding, he], hm, by rw [offsetField, ho], h.offset_lo ho, ?_⟩
    exact (h.pairwise_apart he).imp fun hfg i => Bitfield.not_mem_of_apart hfg
  coordinates _ _ hv := h.coordinate_fits hv

variable (t) in
/-- How planning answers for a topology. -/
structure PlansExactly : Prop where
  widths : ∀ level, IsLeast {n | (t.count level).toNat ≤ 2 ^ n} (idBits (t.count level))
  accepts : (∃ l, plan t = .ok l) ↔
    (∀ level, 1 ≤ t.count level) ∧ idBits t.pxns + idBits t.pods + idBits t.cores ≤ 31
  arithmetic : planChecked t = Failure.ofError (plan t)
  /-- An empty level and the budget are the only causes. -/
  refuses : ∀ e, plan t = .error e → (∃ level, t.count level = 0 ∧ e = .emptyLevel level) ∨
    ((∀ level, 1 ≤ t.count level) ∧ 31 < idBits t.pxns + idBits t.pods + idBits t.cores ∧
      e = .idBudget t (idBits t.pxns) (idBits t.pods) (idBits t.cores) 31)
  placed : ∀ l, plan t = .ok l → WellPlaced t l

theorem one_le_count_iff : (∀ level, 1 ≤ t.count level) ↔ firstEmptyLevel? t = none := by
  rw [firstEmptyLevel?_eq_none_iff]
  refine forall_congr' fun level => ?_
  rw [UInt64.le_iff_toNat_le, UInt64.toNat_one, ← UInt64.toNat_inj.ne]
  exact Nat.one_le_iff_ne_zero

theorem refused_of_plan {e : AddressError} (h : plan t = .error e) :
    (∃ level, t.count level = 0 ∧ e = .emptyLevel level) ∨
      ((∀ level, 1 ≤ t.count level) ∧ 31 < idBits t.pxns + idBits t.pods + idBits t.cores ∧
        e = .idBudget t (idBits t.pxns) (idBits t.pods) (idBits t.cores) 31) := by
  cases hempty : firstEmptyLevel? t with
  | some level =>
    cases (plan_of_empty hempty).symm.trans h
    exact Or.inl ⟨level, by simpa using List.find?_some hempty, rfl⟩
  | none =>
    have hone := one_le_count_iff.mpr hempty
    by_cases hbudget : idBits t.pxns + idBits t.pods + idBits t.cores ≤ idBitsAvailable
    · obtain ⟨l, hl⟩ := exists_plan hempty hbudget
      cases hl.symm.trans h
    · have hover := Nat.not_le.mp hbudget
      cases (plan_of_over_budget hempty hover).symm.trans h
      exact Or.inr ⟨hone, hover, rfl⟩

/-- A topology has a layout exactly if no level is empty and its coordinates fit 31 bits; then every
field, every pair of fields of an encoding and every coordinate of the machine has its room. -/
theorem plans_exactly (t : Topology) : PlansExactly t where
  widths level := isLeast_idBits (t.count level)
  accepts := by
    constructor
    · rintro ⟨l, hl⟩
      have h := planned_of_plan hl
      exact ⟨one_le_count_iff.mpr ((firstEmptyLevel?_eq_none_iff t).mpr h.inhabited), h.budget⟩
    · rintro ⟨hone, hbudget⟩
      exact exists_plan (one_le_count_iff.mp hone) hbudget
  arithmetic := planChecked_eq t
  refuses _ := refused_of_plan
  placed _ hl := (planned_of_plan hl).wellPlaced

end Layout

end TieredMemory
