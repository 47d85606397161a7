import TieredMemory.Proofs.AddressMap.Relative
import TieredMemory.Proofs.Machine.Ownership

/-!
# What warnings tell

The checks warn of one thing only, of an L2SP or DRAM that is larger than the relative window of its
tier. In a machine without errors the warning is exact: it is there if and only if some core has a
byte in the tier that no relative word leads to. L1SP is never larger than its relative window.
-/
set_option autoImplicit false

namespace TieredMemory

theorem Finding.isError_eq_false_iff (f : Finding) : f.isError = false ↔ f.severity = .warning := by
  unfold isError
  cases f.severity <;> decide

namespace Machine

/-- What is said of a memory that is larger than the relative window of its tier. -/
def excess (l : Layout) (tier : Tier) (size : UInt64) : List Finding :=
  if window l tier .relative < size then
    [.exceedsRelativeWindow tier size (window l tier .relative)]
  else []

section Findings

variable {l : Layout} {tier : Tier} {b : BankedMemory} {size : UInt64} {f : Finding}

theorem mem_excess_iff : f ∈ excess l tier size ↔ window l tier .relative < size ∧
    f = .exceedsRelativeWindow tier size (window l tier .relative) := by
  unfold excess
  split
  · next h => rw [List.mem_singleton, and_iff_right h]
  · next h => exact iff_of_false List.not_mem_nil fun hf => h hf.1

theorem isError_of_mem_ite {p : Prop} [Decidable p] {g : Finding} (hf : f.isError = true)
    (hg : g ∈ if p then [f] else []) : g.isError = true := by
  split at hg
  · rwa [List.mem_singleton.mp hg]
  · cases hg

theorem isError_of_mem_checkCoreMemory (h : f ∈ checkCoreMemory l tier size) :
    f.isError = true := by
  unfold checkCoreMemory at h
  dsimp only at h
  split at h
  · rw [List.mem_singleton.mp h]
    rfl
  · exact isError_of_mem_ite rfl h

/-- All that a banked memory is found fault with is an error, but for its excess. -/
theorem mem_checkBanked (h : f ∈ checkBanked l tier b) :
    f.isError = true ∨ f ∈ excess l tier b.size := by
  unfold checkBanked at h
  split at h
  · rw [List.mem_singleton.mp h]
    exact Or.inl rfl
  · split at h
    · rw [List.mem_singleton.mp h]
      exact Or.inl rfl
    · simp only [List.mem_append] at h
      rcases h with ((hsplit | hstripes) | hwindow) | hexcess
      · exact Or.inl (isError_of_mem_ite rfl hsplit)
      · split at hstripes
        · cases hstripes
        · exact Or.inl (isError_of_mem_ite rfl hstripes)
      · exact Or.inl (isError_of_mem_ite rfl hwindow)
      · exact Or.inr hexcess

/-- A memory with bytes in banks is compared with the relative window. -/
theorem mem_checkBanked_of_mem_excess (hsize : b.size ≠ 0) (hbanks : b.banks ≠ 0)
    (h : f ∈ excess l tier b.size) : f ∈ checkBanked l tier b := by
  rw [checkBanked, if_neg hsize, dif_neg hbanks]
  exact List.mem_append_right _ h

end Findings

/-- The tiers whose memories are banked. -/
def bankedTiers : List Tier := [.l2sp, .dram]

variable {machine : Machine} {m : AddressMap} {l : Layout} {tier : Tier} {f : Finding}
  {findings : List Finding}

theorem mem_excess_of_warning (h : f ∈ machine.checkThreads ++ machine.checkSizes l)
    (hf : f.isError = false) : ∃ tier ∈ bankedTiers, f ∈ excess l tier (machine.tierSize tier) := by
  have hno : ¬ f.isError = true := by simp [hf]
  simp only [checkSizes, List.mem_append] at h
  rcases h with hthreads | ((hl1sp | hctrl) | hl2sp) | hdram
  · exact absurd (isError_of_mem_ite rfl hthreads) hno
  · exact absurd (isError_of_mem_checkCoreMemory hl1sp) hno
  · exact absurd (isError_of_mem_checkCoreMemory hctrl) hno
  · exact ⟨.l2sp, by decide, (mem_checkBanked hl2sp).resolve_left hno⟩
  · exact ⟨.dram, by decide, (mem_checkBanked hdram).resolve_left hno⟩

theorem mem_checkSizes_of_mem_excess (hsound : ∀ f ∈ machine.checkSizes l, f.isError = false)
    (ht : tier ∈ bankedTiers) (h : f ∈ excess l tier (machine.tierSize tier)) :
    f ∈ machine.checkSizes l := by
  simp only [checkSizes, List.forall_mem_append] at hsound
  obtain ⟨⟨_, hl2sp⟩, hdram⟩ := hsound
  have hl2sp := even_of_checkBanked hl2sp
  have hdram := even_of_checkBanked hdram
  simp only [bankedTiers, List.mem_cons, List.not_mem_nil, or_false] at ht
  rcases ht with rfl | rfl
  · exact List.mem_append_left _ (List.mem_append_right _
      (mem_checkBanked_of_mem_excess hl2sp.size hl2sp.banks h))
  · exact List.mem_append_right _ (mem_checkBanked_of_mem_excess hdram.size hdram.banks h)

/-! ## Bytes out of reach -/

theorem toNat_window {mode : Mode} {off : Field} (m : AddressMap)
    (ho : Field.offset? mode tier = some off) :
    (window m.layout tier mode).toNat = 2 ^ (m.layout.field off).bits := by
  obtain ⟨size, hsize, hvalues⟩ := AddressMap.exists_windowSize (m := m) ho
  rw [window, hsize, hvalues]

theorem toNat_relative_window (m : AddressMap) (h : tier.allowsRelative = true) :
    (window m.layout tier .relative).toNat = tier.relativeSize := by
  obtain ⟨off, ho⟩ := Field.exists_relative_offset h
  rw [toNat_window m ho, m.layout.two_pow_relative_bits ho]

theorem allowsRelative_of_banked (h : tier ∈ bankedTiers) : tier.allowsRelative = true := by
  revert tier
  decide

/-- A memory is larger than its relative window exactly if some core has a byte in it that no
relative word leads to; the first of these bytes lies just behind the window. -/
theorem exists_unreached_iff (hm : m.topology = machine.topology)
    (h : tier.allowsRelative = true) :
    window m.layout tier .relative < machine.tierSize tier ↔
      ∃ core offset, machine.topology.HasCore core ∧ offset < machine.tierSize tier ∧
        ¬ m.Reaches core tier offset := by
  have hwindow := toNat_relative_window m h
  constructor
  · intro hlt
    have hfirst : m.topology.HasCore .first := fun level => by
      cases level <;> exact m.shape.zero_lt_count _
    refine ⟨.first, window m.layout tier .relative, hm ▸ hfirst, hlt, fun hreach => ?_⟩
    exact Nat.lt_irrefl _ (hwindow ▸ (AddressMap.reaches_iff hfirst).mp hreach)
  · rintro ⟨core, offset, hcore, hlt, hout⟩
    have hle := Nat.not_lt.mp (mt (AddressMap.reaches_iff (hm ▸ hcore)).mpr hout)
    exact UInt64.lt_of_le_of_lt (UInt64.le_iff_toNat_le.mpr (hwindow ▸ hle)) hlt

/-- The bytes of a checked machine have words, for every core that has or shares them. -/
theorem exists_word (hm : m.topology = machine.topology)
    (hserves : ∀ tier, ∃ r, machine.Serves m.layout tier r) {core : CoreId} {offset : UInt64}
    (hcore : machine.topology.HasCore core) (hlt : offset < machine.tierSize tier) :
    ∃ word, m.encode (.absoluteFor tier core offset) = .ok word := by
  obtain ⟨r, hr⟩ := hserves tier
  obtain ⟨off, ho⟩ := Field.exists_absolute_offset tier
  have hcore' : m.topology.HasCore core := hm ▸ hcore
  obtain ⟨base, hbase⟩ := AddressMap.exists_base_of_owner (hcore'.hasOwner tier) ho
  obtain ⟨word, hword, _⟩ :=
    hbase offset (offset_fits_of_lt_window ho (UInt64.lt_of_lt_of_le hlt hr.window))
  exact ⟨word, hword⟩

/-- The relative window of L1SP is as large as the absolute one. -/
theorem reaches_l1sp (hm : m.topology = machine.topology)
    (hserves : ∀ tier, ∃ r, machine.Serves m.layout tier r) {core : CoreId} {offset : UInt64}
    (hcore : machine.topology.HasCore core) (hlt : offset < machine.l1spSize) :
    m.Reaches core .l1sp offset := by
  obtain ⟨r, hr⟩ := hserves .l1sp
  have ho : Field.offset? .absolute .l1sp = some .absoluteL1spOffset := rfl
  refine (AddressMap.reaches_iff (hm ▸ hcore)).mpr ?_
  calc offset.toNat
    _ < (window m.layout .l1sp .absolute).toNat :=
      UInt64.lt_iff_toNat_lt.mp (UInt64.lt_of_lt_of_le hlt hr.window)
    _ = Tier.l1sp.relativeSize := toNat_window m ho

variable (machine m findings) in
/-- The findings tell of the tiers in which a core has bytes out of the reach of relative words. -/
structure WarnsExactly : Prop where
  encoded : ∀ tier core offset, machine.topology.HasCore core → offset < machine.tierSize tier →
    ∃ word, m.encode (.absoluteFor tier core offset) = .ok word
  warned : ∀ tier ∈ bankedTiers,
    (∃ size window, .exceedsRelativeWindow tier size window ∈ findings) ↔
      ∃ core offset, machine.topology.HasCore core ∧ offset < machine.tierSize tier ∧
        ¬ m.Reaches core tier offset
  l1sp : ∀ core offset, machine.topology.HasCore core → offset < machine.l1spSize →
    m.Reaches core .l1sp offset

theorem warnsExactly_of_plan (hplan : AddressMap.plan machine.topology = .ok m)
    (hsound : ∀ f ∈ machine.checkThreads ++ machine.checkSizes m.layout, f.isError = false) :
    machine.WarnsExactly m (machine.checkThreads ++ machine.checkSizes m.layout) := by
  have hm := AddressMap.topology_of_plan hplan
  have hserves := serves_of_findings hsound
  refine ⟨fun tier core offset => exists_word hm hserves, fun tier ht => ?_,
    fun core offset => reaches_l1sp hm hserves⟩
  rw [← exists_unreached_iff hm (allowsRelative_of_banked ht)]
  constructor
  · rintro ⟨size, limit, hmem⟩
    obtain ⟨tier', _, hexcess⟩ := mem_excess_of_warning hmem rfl
    obtain ⟨hlt, heq⟩ := mem_excess_iff.mp hexcess
    cases heq
    exact hlt
  · intro hlt
    have hexcess := mem_excess_iff.mpr ⟨hlt, rfl⟩
    exact ⟨_, _, List.mem_append_right _
      (mem_checkSizes_of_mem_excess (List.forall_mem_append.mp hsound).2 ht hexcess)⟩

/-- The checks end, and only memories larger than their relative window are warned of. In a machine
without errors the warning is there exactly if some core has a byte in the tier that relative words
do not reach, and every byte of L1SP is reached. -/
theorem warns_exactly (machine : Machine) :
    ∃ findings, machine.validate.outcome = .ok findings ∧
      (∀ f ∈ findings, f.severity = .warning → ∃ tier ∈ bankedTiers, ∃ window,
        f = .exceedsRelativeWindow tier (machine.tierSize tier) window ∧
          window.toNat = tier.relativeSize ∧ window < machine.tierSize tier) ∧
      ((∀ f ∈ findings, f.isError = false) → ∃ m, AddressMap.plan machine.topology = .ok m ∧
        machine.WarnsExactly m findings) := by
  cases hplan : AddressMap.plan machine.topology with
  | error cause =>
    refine ⟨_, validate_of_plan_error hplan, fun f hf hwarning => ?_, fun hsound => ?_⟩
    · have herror : f.isError = true := by
        rcases List.mem_append.mp hf with hthreads | hplan
        · exact isError_of_mem_ite rfl hthreads
        · rw [List.mem_singleton.mp hplan]
          rfl
      cases herror.symm.trans (f.isError_eq_false_iff.mpr hwarning)
    · cases hsound (.unplannable cause) (List.mem_append_right _ (List.mem_singleton_self _))
  | ok m =>
    refine ⟨_, validate_of_plan hplan, fun f hf hwarning => ?_,
      fun hsound => ⟨m, rfl, warnsExactly_of_plan hplan hsound⟩⟩
    obtain ⟨tier, ht, hexcess⟩ := mem_excess_of_warning hf (f.isError_eq_false_iff.mpr hwarning)
    obtain ⟨hlt, rfl⟩ := mem_excess_iff.mp hexcess
    exact ⟨tier, ht, _, rfl, toNat_relative_window m (allowsRelative_of_banked ht), hlt⟩

/-- `uneven` with a DRAM of one byte more than its relative window. -/
def overfull : Machine := { uneven with dram := ⟨0x40000001, 1, 0⟩ }

theorem validate_overfull : overfull.validate.outcome =
    .ok [.exceedsRelativeWindow .dram 0x40000001 0x40000000] := by
  have hplan : AddressMap.plan overfull.topology = .ok AddressMap.uneven := rfl
  have hfindings : overfull.checkThreads ++ overfull.checkSizes AddressMap.uneven.layout =
      [.exceedsRelativeWindow .dram 0x40000001 0x40000000] := by decide
  rw [validate_of_plan hplan, hfindings]

theorem warns_exactly_one_byte :
    overfull.validate.outcome = .ok [.exceedsRelativeWindow .dram 0x40000001 0x40000000] ∧
      ∃ m, AddressMap.plan overfull.topology = .ok m ∧ ∃ core offset,
        overfull.topology.HasCore core ∧ offset < overfull.dram.size ∧
          ¬ m.Reaches core .dram offset := by
  obtain ⟨findings, h, _, hsound⟩ := warns_exactly overfull
  cases h.symm.trans validate_overfull
  obtain ⟨m, hplan, hwarns⟩ := hsound (by decide)
  exact ⟨h, m, hplan,
    (hwarns.warned .dram (by decide)).mp ⟨_, _, List.mem_cons_self⟩⟩

end Machine

end TieredMemory
