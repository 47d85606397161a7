import TieredMemory.Proofs.Machine.Sites
import TieredMemory.Proofs.Machine.Sizes
import TieredMemory.Proofs.Range.Placement

/-!
# Checked machines list all their banks

Checking never leaves the word. Once topology and sizes are without an error, placing the last bank
of each tier cannot fail, nor can any other bank: the list is complete, in order, and every range in
it answers for its own bank.
-/
set_option autoImplicit false

namespace TieredMemory

/-- The range owns the words of the offsets that the description gives to the bank. -/
def Bank.Answers (machine : Machine) (m : AddressMap) (b : Bank) : Prop :=
  ∀ word, b.range.owns word = true ↔ ∃ offset, offset < machine.tierSize b.tier ∧
    machine.bankAt b.tier offset.toNat = b.index.toNat ∧
      m.encode (b.site.address offset) = .ok word

theorem AddressMap.topology_of_plan {t : Topology} {m : AddressMap} (h : plan t = .ok m) :
    m.topology = t := by
  unfold plan at h
  split at h
  · cases h
    rfl
  · cases h

namespace Machine

variable {machine : Machine} {m : AddressMap}

section Placing

variable {tier : Tier} {r : Region} {owner : CoreId} {index : UInt64}

/-- In a tier that is served every bank of every owner has a range, which answers for it. -/
theorem exists_range (hs : machine.Serves m.layout tier r)
    (howner : m.topology.HasOwner tier owner) (hindex : index < machine.bankCount tier) :
    ∃ range, (r.placeFor m tier owner index).outcome = .ok range ∧
      ∀ word, range.owns word = true ↔ ∃ offset, offset < machine.tierSize tier ∧
        machine.bankAt tier offset.toNat = index.toNat ∧
          m.encode (.absoluteFor tier owner offset) = .ok word := by
  obtain ⟨off, ho⟩ := Field.exists_absolute_offset tier
  have hfits : ∀ offset, offset < r.totalSize → (m.layout.field off).fits offset = true :=
    fun offset hlt => offset_fits_of_lt_window ho
      (UInt64.lt_of_lt_of_le hlt (hs.totalSize ▸ hs.window))
  obtain ⟨range, hrange, howns⟩ :=
    Region.exists_placeFor howner ho hfits hs.whole (hs.banks ▸ hindex)
  refine ⟨range, hrange, fun word => ?_⟩
  rw [howns, hs.totalSize]
  simp only [hs.turn]

theorem placeLast_eq_ok (hs : machine.Serves m.layout tier r)
    (howner : m.topology.HasOwner tier owner) :
    (machine.placeLast m tier owner).outcome = .ok () := by
  have hbanks : r.banks ≠ 0 := fun hz => by simpa [hz] using r.banks_pos
  have hlast : r.banks - 1 < machine.bankCount tier := hs.banks ▸ Word.sub_one_lt hbanks
  obtain ⟨range, hrange, _⟩ := exists_range hs howner hlast
  simp [placeLast, hs.region, Word.sub_one_eq_ok hbanks, hrange, Except.map]

end Placing

theorem lastCore_eq_ok (h : ∀ level, machine.topology.count level ≠ 0) :
    machine.lastCore = .ok ⟨machine.pxns - 1, machine.pods - 1, machine.cores - 1⟩ := by
  have hpxns : machine.pxns ≠ 0 := h .pxn
  have hpods : machine.pods ≠ 0 := h .pod
  have hcores : machine.cores ≠ 0 := h .core
  rw [lastCore, Word.sub_one_eq_ok hpxns, Word.sub_one_eq_ok hpods, Word.sub_one_eq_ok hcores]
  rfl

/-- With sound sizes the trial on the last core succeeds. -/
theorem checkPlacement_eq_ok (hm : m.topology = machine.topology)
    (hs : ∀ tier, ∃ r, machine.Serves m.layout tier r) :
    (machine.checkPlacement m).outcome = .ok () := by
  have hcount : ∀ level, machine.topology.count level ≠ 0 := hm ▸ m.shape.inhabited
  have hplace : ∀ tier, (machine.placeLast m tier
      ⟨machine.pxns - 1, machine.pods - 1, machine.cores - 1⟩).outcome = .ok () := by
    intro tier
    obtain ⟨r, hr⟩ := hs tier
    refine placeLast_eq_ok hr (hm ▸ Topology.hasOwner ?_ (fun _ => ?_) (fun _ => ?_))
    · exact Word.sub_one_lt (hcount .pxn)
    · exact Word.sub_one_lt (hcount .pod)
    · exact Word.sub_one_lt (hcount .core)
  simp [checkPlacement, lastCore_eq_ok hcount, hplace, Except.bind]

/-- What holds of a run that gives nothing, and of two runs in turn if it holds of each. -/
structure Gathers (P : Logged (Failure AddressError) (List Bank) → List Site → Prop) : Prop where
  nil : P (pure []) []
  append {x y : Logged (Failure AddressError) (List Bank)} {s t : List Site} : P x s → P y t →
    P (do let a ← x; let b ← y; return a ++ b) (s ++ t)

namespace Gathers

variable {P : Logged (Failure AddressError) (List Bank) → List Site → Prop}

theorem collect (hP : Gathers P) {f : Nat → Logged (Failure AddressError) (List Bank)}
    {g : Nat → List Site} (start count : Nat)
    (h : ∀ i, start ≤ i → i < start + count → P (f i) (g i)) :
    P (Logged.collect f start count) ((List.range' start count).flatMap g) := by
  induction count generalizing start with
  | zero => exact hP.nil
  | succ count ih =>
    rw [Logged.collect_succ, List.range'_succ, List.flatMap_cons]
    refine hP.append (h start (Nat.le_refl _) (by omega)) (ih (start + 1) fun i hle hlt => ?_)
    exact h i (by omega) (by omega)

/-- It holds of the runs of all instances if it does of each. -/
theorem instances (hP : Gathers P) {f : UInt64 → Logged (Failure AddressError) (List Bank)}
    {g : UInt64 → List Site} {count : UInt64} (h : ∀ i, i < count → P (f i) (g i)) :
    P (Machine.instances count f) ((indices count).flatMap g) := by
  rw [indices, List.flatMap_map, List.range_eq_range']
  refine hP.collect 0 count.toNat fun i _ hi => h _ (UInt64.lt_iff_toNat_lt.mpr ?_)
  rw [Nat.zero_add] at hi
  rwa [UInt64.toNat_ofNat_of_lt' (Nat.lt_trans hi count.toNat_lt)]

end Gathers

variable (machine m) in
/-- A run that gives the banks of the sites, each answering for itself. -/
def Lists (x : Logged (Failure AddressError) (List Bank)) (sites : List Site) : Prop :=
  ∃ l, x.outcome = .ok l ∧ l.map Bank.site = sites ∧ ∀ b ∈ l, b.Answers machine m

section Listing

variable {x : Logged (Failure AddressError) (List Bank)} {s : List Site}

theorem gathers_lists : Gathers (Lists machine m) where
  nil := ⟨[], rfl, rfl, by simp⟩
  append := by
    rintro x y s t ⟨a, ha, rfl, hansa⟩ ⟨b, hb, rfl, hansb⟩
    refine ⟨a ++ b, ?_, List.map_append, List.forall_mem_append.mpr ⟨hansa, hansb⟩⟩
    simp [ha, hb, Except.bind, Except.map]

theorem lists_noted (event : List Bank → Event) (hx : Lists machine m x s) :
    Lists machine m (do let l ← x; Logged.emit (event l); return l) s := by
  obtain ⟨l, hl, hsites, hans⟩ := hx
  refine ⟨l, ?_, hsites, hans⟩
  simp [hl, Except.bind, Except.map]

theorem lists_bankOf {tier : Tier} {r : Region} {owner : CoreId} {index : UInt64}
    (hs : machine.Serves m.layout tier r) (howner : m.topology.HasOwner tier owner)
    (hindex : index < machine.bankCount tier) :
    Lists machine m (bankOf m r tier owner index) [.ofOwner tier owner index] := by
  obtain ⟨range, hrange, howns⟩ := exists_range hs howner hindex
  let b : Bank := ⟨tier, owner.pxn, if tier.carries .pod then some owner.pod else none,
    if tier.carries .core then some owner.core else none, index, range⟩
  refine ⟨[b], ?_, rfl, ?_⟩
  · simp [bankOf, hrange, Except.map, b]
  · intro b' hb word
    cases List.mem_singleton.mp hb
    have hsite : b.site = .ofOwner tier owner index := rfl
    simp only [hsite, Site.address_ofOwner]
    exact howns word

theorem lists_core {l1sp ctrl : Region} {owner : CoreId}
    (hl1sp : machine.Serves m.layout .l1sp l1sp) (hctrl : machine.Serves m.layout .ctrl ctrl)
    (howner : ∀ tier, m.topology.HasOwner tier owner) :
    Lists machine m
      (do
        let scratchpad ← bankOf m l1sp .l1sp owner 0
        let control ← bankOf m ctrl .ctrl owner 0
        return scratchpad ++ control)
      (coreSites owner.pxn owner.pod owner.core) :=
  gathers_lists.append (lists_bankOf hl1sp (howner .l1sp) UInt64.zero_lt_one)
    (lists_bankOf hctrl (howner .ctrl) UInt64.zero_lt_one)

end Listing

/-- A machine whose tiers are served lists its banks in order. -/
theorem lists_banksOn (hm : m.topology = machine.topology)
    (hs : ∀ tier, ∃ r, machine.Serves m.layout tier r) :
    Lists machine m (machine.banksOn m) machine.sites := by
  obtain ⟨l1sp, hl1sp⟩ := hs .l1sp
  obtain ⟨ctrl, hctrl⟩ := hs .ctrl
  obtain ⟨l2sp, hl2sp⟩ := hs .l2sp
  obtain ⟨dram, hdram⟩ := hs .dram
  have howner : ∀ {tier : Tier} {owner : CoreId}, owner.pxn < machine.pxns →
      (tier.carries .pod = true → owner.pod < machine.pods) →
      (tier.carries .core = true → owner.core < machine.cores) → m.topology.HasOwner tier owner :=
    fun hpxn hpod hcore => hm ▸ Topology.hasOwner hpxn hpod hcore
  unfold banksOn
  simp only [hl1sp.region, hctrl.region, hl2sp.region, hdram.region, Failure.ofError_ok,
    Logged.ofExcept_ok, pure_bind]
  -- the loops of the run are nested as the parts of the list are
  refine lists_noted _ (gathers_lists.instances fun pxn hpxn => ?_)
  rw [pxnSites, List.map_eq_flatMap, hdram.banks]
  refine gathers_lists.append (gathers_lists.instances fun index hindex => ?_)
    (gathers_lists.instances fun pod hpod => ?_)
  · exact lists_bankOf hdram (howner hpxn (absurd · (by decide)) (absurd · (by decide))) hindex
  · rw [podSites, List.map_eq_flatMap, hl2sp.banks]
    refine gathers_lists.append (gathers_lists.instances fun index hindex => ?_)
      (gathers_lists.instances fun core hcore => ?_)
    · exact lists_bankOf hl2sp (howner hpxn (fun _ => hpod) (absurd · (by decide))) hindex
    · exact lists_core hl1sp hctrl fun _ => howner hpxn (fun _ => hpod) fun _ => hcore

section Validation

theorem validate_of_plan_error {cause : AddressError}
    (h : AddressMap.plan machine.topology = .error cause) :
    machine.validate.outcome = .ok (machine.checkThreads ++ [.unplannable cause]) := by
  simp only [validate, AddressMap.planLogged, Logged.outcome_noting, h]

/-- An error about threads or sizes ends the checks. -/
theorem validate_of_error (hplan : AddressMap.plan machine.topology = .ok m)
    (h : ¬ ∀ f ∈ machine.checkThreads ++ machine.checkSizes m.layout, f.isError = false) :
    machine.validate.outcome = .ok (machine.checkThreads ++ machine.checkSizes m.layout) := by
  have hany : (machine.checkThreads ++ machine.checkSizes m.layout).any Finding.isError = true := by
    rw [← Bool.not_eq_false, List.any_eq_false]
    simpa using h
  simp only [validate, AddressMap.planLogged, Logged.outcome_noting, hplan, hany, ↓reduceIte]

theorem serves_of_findings
    (h : ∀ f ∈ machine.checkThreads ++ machine.checkSizes m.layout, f.isError = false)
    (tier : Tier) : ∃ r, machine.Serves m.layout tier r :=
  exists_serves (List.forall_mem_append.mp h).2 tier

/-- Without an error so far the trial on the last core finds none. -/
theorem validate_of_no_error (hplan : AddressMap.plan machine.topology = .ok m)
    (h : ∀ f ∈ machine.checkThreads ++ machine.checkSizes m.layout, f.isError = false) :
    machine.validate.outcome = .ok (machine.checkThreads ++ machine.checkSizes m.layout) := by
  have hany : (machine.checkThreads ++ machine.checkSizes m.layout).any Finding.isError = false :=
    List.any_eq_false.mpr (by simpa using h)
  have hplaced :=
    checkPlacement_eq_ok (AddressMap.topology_of_plan hplan) (serves_of_findings h)
  simp only [validate, AddressMap.planLogged, Logged.outcome_noting, hplan, hany, hplaced,
    Bool.false_eq_true, ↓reduceIte]

/-- With a plan the findings are those about threads and sizes. -/
theorem validate_of_plan (hplan : AddressMap.plan machine.topology = .ok m) :
    machine.validate.outcome = .ok (machine.checkThreads ++ machine.checkSizes m.layout) := by
  by_cases h : ∀ f ∈ machine.checkThreads ++ machine.checkSizes m.layout, f.isError = false
  · exact validate_of_no_error hplan h
  · exact validate_of_error hplan h

theorem banks_of_plan (hplan : AddressMap.plan machine.topology = .ok m) :
    machine.banks.outcome = (machine.banksOn m).outcome := by
  simp [banks, addressMap, AddressMap.planLogged, hplan, Except.bind, Except.map]

end Validation

variable (machine) in
/-- A list of all banks of the machine. -/
structure ListsAllBanks (l : List Bank) : Prop where
  length : l.length = machine.pxns.toNat * (machine.dram.banks.toNat +
    machine.pods.toNat * (machine.l2sp.banks.toNat + 2 * machine.cores.toNat))
  order : l.map Bank.site = machine.sites
  once : (l.map Bank.site).Nodup
  complete : ∀ site, site ∈ l.map Bank.site ↔ machine.HasSite site

theorem listsAllBanks_of_order {l : List Bank} (h : l.map Bank.site = machine.sites) :
    machine.ListsAllBanks l where
  length := by rw [← machine.length_sites, ← h, List.length_map]
  order := h
  once := h ▸ machine.nodup_sites
  complete _ := h ▸ mem_sites

/-- Checking never leaves the word. If topology, threads and sizes are without an error, the trial
adds none, and the machine lists all its banks, each once and in order. -/
theorem validate_sound (machine : Machine) :
    (∃ findings, machine.validate.outcome = .ok findings) ∧
      ∀ m, AddressMap.plan machine.topology = .ok m →
        (∀ f ∈ machine.checkThreads ++ machine.checkSizes m.layout, f.isError = false) →
          (machine.checkPlacement m).outcome = .ok () ∧
            machine.validate.outcome =
              .ok (machine.checkThreads ++ machine.checkSizes m.layout) ∧
            ∃ l, machine.banks.outcome = .ok l ∧ machine.ListsAllBanks l := by
  constructor
  · cases hplan : AddressMap.plan machine.topology with
    | error cause => exact ⟨_, validate_of_plan_error hplan⟩
    | ok m =>
      by_cases h : ∀ f ∈ machine.checkThreads ++ machine.checkSizes m.layout, f.isError = false
      · exact ⟨_, validate_of_no_error hplan h⟩
      · exact ⟨_, validate_of_error hplan h⟩
  · intro m hplan h
    have hm := AddressMap.topology_of_plan hplan
    have hs := serves_of_findings h
    obtain ⟨l, hl, hsites, _⟩ := lists_banksOn hm hs
    exact ⟨checkPlacement_eq_ok hm hs, validate_of_no_error hplan h, l,
      (banks_of_plan hplan).trans hl, listsAllBanks_of_order hsites⟩

/-- A machine none of whose counts is a power of two, with an L2 scratchpad of 3 banks in stripes
and DRAM of 5 banks of one stripe each. -/
def uneven : Machine where
  name := "uneven"
  pxns := 3
  pods := 5
  cores := 7
  coreThreads := 1
  l1spSize := 0x1800
  l2sp := ⟨0x3000, 3, 64⟩
  dram := ⟨0x5000, 5, 0⟩
  ctrlSize := 0x100

theorem uneven_no_error : ∀ f ∈ uneven.checkThreads ++ uneven.checkSizes AddressMap.uneven.layout,
    f.isError = false := by
  decide

theorem validate_sound_uneven :
    AddressMap.plan uneven.topology = .ok AddressMap.uneven ∧
      (∀ f ∈ uneven.checkThreads ++ uneven.checkSizes AddressMap.uneven.layout,
        f.isError = false) ∧
      (uneven.checkPlacement AddressMap.uneven).outcome = .ok () ∧
      ∃ l, uneven.banks.outcome = .ok l ∧ uneven.ListsAllBanks l := by
  have hplan : AddressMap.plan uneven.topology = .ok AddressMap.uneven := rfl
  obtain ⟨hplaced, _, hbanks⟩ :=
    (validate_sound uneven).2 AddressMap.uneven hplan uneven_no_error
  exact ⟨hplan, uneven_no_error, hplaced, hbanks⟩

end Machine

end TieredMemory
