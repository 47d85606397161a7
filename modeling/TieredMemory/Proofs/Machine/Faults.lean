import TieredMemory.Proofs.Machine.Enumeration
import TieredMemory.Proofs.Range.Faults

/-!
# Lists of banks that leave the word

Listing the banks of a machine does not wait for its sizes to be checked. The only arithmetic that
can fail is that of envelopes, so the list is without a fault if the regions of L2SP and DRAM have
room, and if one of them has none, the run ends at the first of its banks that it reaches.
-/
set_option autoImplicit false

namespace TieredMemory

namespace Logged

variable {ε α β : Type} {x : Logged (Failure ε) α}

/-- No step of the computation leaves the word. -/
def KeepsWord (x : Logged (Failure ε) α) : Prop := ∀ fault, x.outcome ≠ .error (.fault fault)

theorem keepsWord_pure (a : α) : KeepsWord (pure a : Logged (Failure ε) α) :=
  fun _ h => by cases h

theorem keepsWord_ofError (x : Except ε α) : KeepsWord (ofExcept (Failure.ofError x)) :=
  Failure.ofError_ne_fault x

theorem keepsWord_emit (event : Event) : KeepsWord (emit event : Logged (Failure ε) Unit) :=
  fun _ h => by cases h

theorem keepsWord_bind {f : α → Logged (Failure ε) β} (hx : KeepsWord x)
    (hf : ∀ a, x.outcome = .ok a → KeepsWord (f a)) : KeepsWord (x >>= f) := by
  intro fault h
  rw [outcome_bind, bind_eq_error_iff] at h
  rcases h with h | ⟨a, ha, h⟩
  · exact hx fault h
  · exact hf a ha fault h

theorem keepsWord_collect {f : Nat → Logged (Failure ε) (List α)} (h : ∀ i, KeepsWord (f i))
    (start count : Nat) : KeepsWord (collect f start count) := by
  induction count generalizing start with
  | zero => exact keepsWord_pure []
  | succ count ih =>
    rw [collect_succ]
    exact keepsWord_bind (h start) fun _ _ => keepsWord_bind (ih (start + 1)) fun _ _ =>
      keepsWord_pure _

end Logged

open Logged

namespace Machine

variable {machine : Machine} {m : AddressMap} {r l1sp ctrl l2sp dram : Region} {tier : Tier}

theorem keepsWord_instances {f : UInt64 → Logged (Failure AddressError) (List Bank)}
    (h : ∀ i, KeepsWord (f i)) (count : UInt64) : KeepsWord (instances count f) :=
  keepsWord_collect (fun _ => h _) 0 count.toNat

theorem keepsWord_bankOf (h : r.HasRoom) (owner : CoreId) (index : UInt64) :
    KeepsWord (bankOf m r tier owner index) :=
  keepsWord_bind (fun _ hf => Region.envelope_ne_fault h index (Region.place_fault_iff.mp hf))
    fun _ _ => keepsWord_pure _

/-- A region of a single bank has room. -/
theorem hasRoom_of_unstriped {size : UInt64} (h : Region.unstriped size = .ok r) : r.HasRoom :=
  Region.hasRoom_of_single (Region.banks_of_unstriped (Region.eq_of_make h).2.1)

/-- With room in every region no step of listing the banks leaves the word. -/
theorem keepsWord_banksOn (h : ∀ tier r, machine.region tier = .ok r → r.HasRoom) :
    KeepsWord (machine.banksOn m) := by
  unfold banksOn
  refine keepsWord_bind (keepsWord_ofError _) fun l1sp hl1sp => ?_
  refine keepsWord_bind (keepsWord_ofError _) fun ctrl hctrl => ?_
  refine keepsWord_bind (keepsWord_ofError _) fun l2sp hl2sp => ?_
  refine keepsWord_bind (keepsWord_ofError _) fun dram hdram => ?_
  have hroom : ∀ tier r, (ofExcept (Failure.ofError (machine.region tier))).outcome = .ok r →
      r.HasRoom := fun tier r hr => h tier r (Failure.ofError_eq_ok_iff.mp hr)
  -- the loops of the run, outermost first
  refine keepsWord_bind (keepsWord_instances (fun pxn => ?_) _) fun _ _ =>
    keepsWord_bind (keepsWord_emit _) fun _ _ => keepsWord_pure _
  refine keepsWord_bind (keepsWord_instances (fun i => ?_) _) fun _ _ =>
    keepsWord_bind (keepsWord_instances (fun pod => ?_) _) fun _ _ => keepsWord_pure _
  · exact keepsWord_bankOf (hroom _ _ hdram) _ i
  · refine keepsWord_bind (keepsWord_instances (fun i => ?_) _) fun _ _ =>
      keepsWord_bind (keepsWord_instances (fun core => ?_) _) fun _ _ => keepsWord_pure _
    · exact keepsWord_bankOf (hroom _ _ hl2sp) _ i
    · exact keepsWord_bind (keepsWord_bankOf (hroom _ _ hl1sp) _ 0) fun _ _ =>
        keepsWord_bind (keepsWord_bankOf (hroom _ _ hctrl) _ 0) fun _ _ => keepsWord_pure _

/-! ## Where the run ends -/

/-- The first instance is the first to end the run. -/
theorem instances_of_error {f : UInt64 → Logged (Failure AddressError) (List Bank)}
    {count : UInt64} (hpos : count ≠ 0) {e : Failure AddressError} (h : (f 0).outcome = .error e) :
    (instances count f).outcome = .error e := by
  obtain ⟨n, hn⟩ := Nat.exists_eq_succ_of_ne_zero (Word.toNat_ne_zero hpos)
  rw [instances, hn, collect_succ]
  exact outcome_bind_of_error h

theorem bankOf_of_not_hasRoom (h : ¬ r.HasRoom) (owner : CoreId) :
    (bankOf m r tier owner 0).outcome = .error (.fault .subtraction) :=
  outcome_bind_of_error (Region.place_fault_iff.mpr (Region.envelope_zero_of_not_hasRoom h))

variable (machine m l2sp dram) in
/-- The machine has a map, and a region for every tier. -/
structure Accepts : Prop where
  plan : AddressMap.plan machine.topology = .ok m
  l1sp : ∃ r, machine.region .l1sp = .ok r
  ctrl : ∃ r, machine.region .ctrl = .ok r
  l2sp : machine.region .l2sp = .ok l2sp
  dram : machine.region .dram = .ok dram

variable (m dram) in
/-- The DRAM banks of the first PXN, with which the run begins. -/
def firstBanks : Logged (Failure AddressError) (List Bank) :=
  instances dram.banks fun i => bankOf m dram .dram .first i

theorem Accepts.inhabited (h : machine.Accepts m l2sp dram) (level : Level) :
    machine.topology.count level ≠ 0 :=
  (AddressMap.topology_of_plan h.plan ▸ m.shape.inhabited) level

section Accepted

variable (h : machine.Accepts m l2sp dram)

include h

theorem Accepts.banksOn_of_first_error {e : Failure AddressError}
    (hfirst : (firstBanks m dram).outcome = .error e) : (machine.banksOn m).outcome = .error e := by
  obtain ⟨l1sp, hl1sp⟩ := h.l1sp
  obtain ⟨ctrl, hctrl⟩ := h.ctrl
  unfold banksOn
  simp only [hl1sp, hctrl, h.l2sp, h.dram, Failure.ofError_ok, ofExcept_ok, pure_bind]
  exact outcome_bind_of_error (instances_of_error (h.inhabited .pxn) (outcome_bind_of_error hfirst))

/-- After the first DRAM banks come the L2SP banks of the first pod. -/
theorem Accepts.banksOn_of_l2sp {placed : List Bank}
    (hfirst : (firstBanks m dram).outcome = .ok placed) (hroom : ¬ l2sp.HasRoom) :
    (machine.banksOn m).outcome = .error (.fault .subtraction) := by
  obtain ⟨l1sp, hl1sp⟩ := h.l1sp
  obtain ⟨ctrl, hctrl⟩ := h.ctrl
  have hpod : (instances l2sp.banks fun i => bankOf m l2sp .l2sp ⟨0, 0, 0⟩ i).outcome =
      .error (.fault .subtraction) :=
    instances_of_error l2sp.banks_ne (bankOf_of_not_hasRoom hroom _)
  unfold banksOn
  simp only [hl1sp, hctrl, h.l2sp, h.dram, Failure.ofError_ok, ofExcept_ok, pure_bind]
  refine outcome_bind_of_error (instances_of_error (h.inhabited .pxn) ?_)
  refine (outcome_bind_of_ok hfirst).trans (outcome_bind_of_error ?_)
  exact instances_of_error (h.inhabited .pod) (outcome_bind_of_error hpod)

theorem Accepts.banksOn_of_dram (hroom : ¬ dram.HasRoom) :
    (machine.banksOn m).outcome = .error (.fault .subtraction) :=
  h.banksOn_of_first_error (instances_of_error dram.banks_ne (bankOf_of_not_hasRoom hroom _))

theorem Accepts.hasRoom (hl2sp : l2sp.HasRoom) (hdram : dram.HasRoom) :
    ∀ tier r, machine.region tier = .ok r → r.HasRoom
  | .l1sp, _, hr => hasRoom_of_unstriped hr
  | .ctrl, _, hr => hasRoom_of_unstriped hr
  | .l2sp, _, hr => by
    cases h.l2sp.symm.trans hr
    exact hl2sp
  | .dram, _, hr => by
    cases h.dram.symm.trans hr
    exact hdram

end Accepted

/-- A run that leaves the word has got as far as the banks. -/
theorem exists_accepts_of_fault {fault : ArithmeticFault}
    (h : machine.banks.outcome = .error (.fault fault)) :
    ∃ m l2sp dram, machine.Accepts m l2sp dram ∧
      (machine.banksOn m).outcome = .error (.fault fault) := by
  cases hplan : AddressMap.plan machine.topology with
  | error cause =>
    simp [banks, addressMap, AddressMap.planLogged, hplan, Except.bind, Except.mapError] at h
  | ok m =>
    rw [banks_of_plan hplan] at h
    have h' := h
    unfold banksOn at h'
    simp only [outcome_bind, outcome_ofExcept, bind_eq_error_iff, Failure.ofError_ne_fault,
      Failure.ofError_eq_ok_iff, false_or] at h'
    obtain ⟨l1sp, hl1sp, ctrl, hctrl, l2sp, hl2sp, dram, hdram, _⟩ := h'
    exact ⟨m, l2sp, dram, ⟨hplan, ⟨l1sp, hl1sp⟩, ⟨ctrl, hctrl⟩, hl2sp, hdram⟩, h⟩

/-- Envelopes are sound exactly in a region with room. Listing the banks of a machine leaves the
word exactly if the regions are accepted and DRAM has no room, or its first banks can be placed and
L2SP has none. -/
theorem faults_without_room (r : Region) (machine : Machine) (fault : ArithmeticFault) :
    r.EnvelopesExactly ∧ (machine.banks.outcome = .error (.fault fault) ↔
      fault = .subtraction ∧ ∃ m l2sp dram, machine.Accepts m l2sp dram ∧
        (¬ dram.HasRoom ∨ ((∃ placed, (firstBanks m dram).outcome = .ok placed) ∧
          ¬ l2sp.HasRoom))) := by
  refine ⟨r.envelopesExactly, fun h => ?_, ?_⟩
  · obtain ⟨m, l2sp, dram, ha, hon⟩ := exists_accepts_of_fault h
    by_cases hdram : dram.HasRoom
    · cases hfirst : (firstBanks m dram).outcome with
      | error e =>
        cases (ha.banksOn_of_first_error hfirst).symm.trans hon
        exact absurd hfirst (keepsWord_instances (keepsWord_bankOf hdram .first) _ fault)
      | ok placed =>
        have hl2sp : ¬ l2sp.HasRoom := fun hl2sp =>
          keepsWord_banksOn (ha.hasRoom hl2sp hdram) fault hon
        cases (ha.banksOn_of_l2sp hfirst hl2sp).symm.trans hon
        exact ⟨rfl, m, l2sp, dram, ha, Or.inr ⟨⟨placed, hfirst⟩, hl2sp⟩⟩
    · cases (ha.banksOn_of_dram hdram).symm.trans hon
      exact ⟨rfl, m, l2sp, dram, ha, Or.inl hdram⟩
  · rintro ⟨rfl, m, l2sp, dram, ha, hroom⟩
    rw [banks_of_plan ha.plan]
    rcases hroom with hdram | ⟨⟨placed, hfirst⟩, hl2sp⟩
    · exact ha.banksOn_of_dram hdram
    · exact ha.banksOn_of_l2sp hfirst hl2sp

/-- Two banks of one byte in stripes of two are accepted. Bank 0 has no envelope, that of bank 1
ends before it starts, and a machine with such DRAM has no list of its banks. -/
theorem faults_of_byte_banks :
    (∃ r, Region.make 1 2 4 = .ok r ∧ 0 < r.banks ∧
      r.envelope 0 = .error (.fault .subtraction) ∧ 1 < r.banks ∧ r.envelope 1 = .ok (2, 1)) ∧
    ({ uneven with dram := ⟨2, 2, 2⟩ } : Machine).banks.outcome = .error (.fault .subtraction) := by
  refine ⟨⟨⟨1, 2, 4, by decide, by decide, by decide⟩, rfl, by decide, rfl, by decide, rfl⟩, ?_⟩
  rfl

end Machine

end TieredMemory
