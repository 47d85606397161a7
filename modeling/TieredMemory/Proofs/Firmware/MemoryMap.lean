import TieredMemory.Proofs.AddressMap.Relative
import TieredMemory.Proofs.Firmware.MemoryBlock
import TieredMemory.Proofs.Machine.Ownership

/-!
# The memory a program is linked against

The regions of the linker script are the relative windows, which no topology moves: they share the
words below `2 ^ 31` among the three tiers that a core reaches without naming itself. Such a word is
read as a byte of the tier that its region is named for, and resolving it leads to the one bank that
has this byte for the core.
-/
set_option autoImplicit false

namespace TieredMemory

namespace Firmware.LinkerScript

/-! ## The regions -/

def MemoryRegion.Holds (r : MemoryRegion) (w : UInt64) : Prop :=
  r.origin.toNat ≤ w.toNat ∧ w.toNat < r.origin.toNat + r.length.toNat

instance (r : MemoryRegion) (w : UInt64) : Decidable (r.Holds w) :=
  inferInstanceAs (Decidable (_ ∧ _))

/-- The regions of every machine, each with the tier that it is a part of. -/
def memoryMap : List (Tier × MemoryRegion) :=
  [(.l1sp, ⟨"L1SP_VMA", "rw", 0, 0x20000000⟩),
    (.l2sp, ⟨"L2SP_VMA", "rw", 0x20000000, 0x20000000⟩),
    (.dram, ⟨"DRAM_T_VMA", "rwx", 0x40000000, 0x800000⟩),
    (.dram, ⟨"DRAM_D_VMA", "rwx", 0x40800000, 0x3F800000⟩)]

/-- The regions share the words of relative addresses, and a word is read as the byte that lies as
far behind the base of its region's tier. -/
structure MatchesMap (m : AddressMap) : Prop where
  apart : memoryMap.Pairwise fun p q => ∀ w, p.2.Holds w → ¬ q.2.Holds w
  covers : ∀ w : UInt64, (∃ p ∈ memoryMap, p.2.Holds w) ↔ w.toNat < 2 ^ 31
  encoded : ∀ w : UInt64, w.toNat < 2 ^ 31 →
    ∃ a : Address, a.WellFormed ∧ a.mode = .relative ∧ m.encode a = .ok w
  /-- A description without a meaning has no other word either. -/
  below : ∀ (a : Address) (w : UInt64), a.mode = .relative → m.encode a = .ok w → w.toNat < 2 ^ 31
  decoded : ∀ p ∈ memoryMap, ∃ base, m.encode (.relative p.1 0) = .ok base ∧
    ∀ w, p.2.Holds w → base ≤ w ∧
      ∀ issuer, m.decode w issuer = { Address.relative p.1 (w - base) with issuer := some issuer }

variable {m : AddressMap} {p : Tier × MemoryRegion} {w : UInt64}

theorem outcome_window {tier : Tier} {off : Field} {base size : UInt64}
    (ho : Field.offset? .relative tier = some off) (hbase : base.toNat = tier.relativeStart)
    (hsize : size.toNat = tier.relativeSize) :
    ((window m (.relative tier 0)).mapError Failure.error).outcome = .ok (base, size) := by
  obtain ⟨bytes, hbytes, hbytes'⟩ := AddressMap.exists_windowSize (m := m) ho
  obtain rfl : bytes = size := UInt64.toNat_inj.mp
    (hbytes'.trans ((m.layout.two_pow_relative_bits ho).trans hsize.symm))
  have hencode : (m.encodeLogged (.relative tier 0)).outcome = .ok base := by
    rw [AddressMap.encodeLogged, Logged.outcome_noting]
    exact (AddressMap.encode_relative_zero_iff ho).mpr hbase
  have hlength : (Logged.ofExcept (m.layout.windowSize tier .relative)).outcome = .ok bytes :=
    hbytes
  have hwindow : (window m (.relative tier 0)).outcome = .ok (base, bytes) :=
    (Logged.outcome_bind_of_ok hencode).trans (Logged.outcome_bind_of_ok hlength)
  rw [Logged.outcome_mapError, hwindow, mapError_ok]

theorem outcome_regions (m : AddressMap) :
    (regions m).outcome = .ok (memoryMap.map Prod.snd) := by
  have hl1sp : ((window m (.relativeL1sp 0)).mapError Failure.error).outcome =
      .ok (0, 0x20000000) := outcome_window rfl rfl rfl
  have hl2sp : ((window m (.relativeL2sp 0)).mapError Failure.error).outcome =
      .ok (0x20000000, 0x20000000) := outcome_window rfl rfl rfl
  have hdram : ((window m (.relativeDram 0)).mapError Failure.error).outcome =
      .ok (0x40000000, 0x40000000) := outcome_window rfl rfl rfl
  have horigin : Word.add 0x40000000 dramTextSize = .ok 0x40800000 := if_pos (by decide)
  have hlength : Word.sub 0x40000000 dramTextSize = .ok 0x3F800000 := if_pos (by decide)
  rw [regions, Logged.outcome_bind_of_ok hl1sp, Logged.outcome_bind_of_ok hl2sp,
    Logged.outcome_bind_of_ok hdram]
  simp only [horigin, hlength, Failure.ofFault_ok, Logged.ofExcept_ok, pure_bind,
    Logged.outcome_pure]
  rfl

theorem outcome_render (m : AddressMap) :
    (render m).outcome = .ok (text (memoryMap.map Prod.snd)) := by
  rw [render, Logged.outcome_bind_of_ok (outcome_regions m), Logged.outcome_noting]

theorem readable_memoryMap : ∀ r ∈ memoryMap.map Prod.snd, r.Readable := by decide

theorem pairwise_apart :
    memoryMap.Pairwise fun p q => ∀ w, p.2.Holds w → ¬ q.2.Holds w := by
  have hsorted : memoryMap.Pairwise fun p q =>
      p.2.origin.toNat + p.2.length.toNat ≤ q.2.origin.toNat := by decide
  exact hsorted.imp fun hle w hp hq => Nat.not_lt.mpr (hle.trans hq.1) hp.2

theorem exists_holds_iff (w : UInt64) : (∃ p ∈ memoryMap, p.2.Holds w) ↔ w.toNat < 2 ^ 31 := by
  simp only [memoryMap, List.mem_cons, List.not_mem_nil, or_false, exists_eq_or_imp, exists_eq_left,
    MemoryRegion.Holds, UInt64.toNat_zero, UInt64.reduceToNat]
  omega

theorem allowsRelative_of_mem (hp : p ∈ memoryMap) : p.1.allowsRelative = true := by
  revert p
  decide

/-- The words of a region are those of the bytes at the same distance from the base of its tier. -/
theorem exists_base_of_mem (m : AddressMap) (hp : p ∈ memoryMap) :
    ∃ base, m.encode (.relative p.1 0) = .ok base ∧
      ∀ w, p.2.Holds w → base ≤ w ∧ m.encode (.relative p.1 (w - base)) = .ok w := by
  have hinside : ∀ p ∈ memoryMap, p.1.relativeStart ≤ p.2.origin.toNat ∧
      p.2.origin.toNat + p.2.length.toNat ≤ p.1.relativeStart + p.1.relativeSize := by decide
  obtain ⟨hfirst, hlast⟩ := hinside p hp
  obtain ⟨off, ho⟩ := Field.exists_relative_offset (allowsRelative_of_mem hp)
  obtain ⟨base, hbase, hstart⟩ := m.exists_relativeBase ho
  refine ⟨base, hbase, fun w hw => ?_⟩
  have hle := hfirst.trans hw.1
  refine ⟨UInt64.le_iff_toNat_le.mpr (hstart ▸ hle), ?_⟩
  exact AddressMap.encode_relative_sub ho hstart hle (Nat.lt_of_lt_of_le hw.2 hlast)

theorem matchesMap (m : AddressMap) : MatchesMap m where
  apart := pairwise_apart
  covers := exists_holds_iff
  encoded w hlt := by
    obtain ⟨p, hp, hw⟩ := (exists_holds_iff w).mpr hlt
    obtain ⟨base, _, hwords⟩ := exists_base_of_mem m hp
    exact ⟨_, Address.wellFormed_relative (allowsRelative_of_mem hp) _, rfl, (hwords w hw).2⟩
  below _ _ := AddressMap.lt_of_encode_relative
  decoded p hp := by
    obtain ⟨base, hbase, hwords⟩ := exists_base_of_mem m hp
    refine ⟨base, hbase, fun w hw => ⟨(hwords w hw).1, fun issuer => ?_⟩⟩
    have hw' := Address.wellFormed_relative (allowsRelative_of_mem hp) (w - base)
    exact AddressMap.decode_of_encode hw' (hwords w hw).2 issuer

/-! ## The banks behind the regions -/

/-- A word of a region that is below the size of its tier leads every core to one bank, which is the
core's own or the one that it shares. -/
def ReachesOneBank (machine : Machine) (m : AddressMap) (l : List Bank) : Prop :=
  ∀ core, machine.topology.HasCore core → ∀ p ∈ memoryMap, ∀ w, p.2.Holds w →
    (m.decode w core).offset < machine.tierSize p.1 →
      ∃ word b, m.toAbsolute w core = .ok word ∧ l.filter (·.range.owns word) = [b] ∧
        b.site = .ofOwner p.1 core b.index

variable {machine : Machine} {l : List Bank}

theorem reachesOneBank (hm : m.topology = machine.topology) (howned : machine.OwnedOnce m l) :
    ReachesOneBank machine m l := by
  intro core hcore p hp w hw hlt
  obtain ⟨base, _, hread⟩ := (matchesMap m).decoded p hp
  have hdecode := (hread w hw).2 core
  have hmode : (m.decode w core).mode = .relative := by rw [hdecode]; rfl
  have htier : (m.decode w core).tier = p.1 := by rw [hdecode]; rfl
  have htarget : m.target w core = .absoluteFor p.1 core (m.decode w core).offset := by
    rw [AddressMap.target, htier]
  have hin : m.Inside (m.target w core) := by
    rw [htarget, AddressMap.inside_absoluteFor_iff, hm]
    exact hcore.hasOwner p.1
  have hoffset : (m.target w core).offset < machine.tierSize (m.target w core).tier := by
    rw [htarget, Address.offset_absoluteFor, Address.tier_absoluteFor]
    exact hlt
  obtain ⟨word, b, hword, hfilter, haddress, _⟩ := howned.owner (m.target w core)
    (Address.wellFormed_absoluteFor _ _ _) (Address.mode_absoluteFor _ _ _) (hm ▸ hin) hoffset
  refine ⟨word, b, (AddressMap.toAbsolute_of_relative hmode).trans hword, hfilter, ?_⟩
  rw [htarget, ← Site.address_ofOwner p.1 core b.index] at haddress
  exact Site.eq_of_address_eq haddress rfl

/-- The regions of the linker script are the same for every machine and are what the map reads; in a
machine that checks without an error, they lead every core to its own banks. The script, one for all
machines, says these regions. -/
theorem memoryMap_agrees :
    (∀ m : AddressMap, (regions m).outcome = .ok (memoryMap.map Prod.snd) ∧ MatchesMap m) ∧
      (∀ (machine : Machine) (findings : List Finding),
        machine.validate.outcome = .ok findings → (∀ f ∈ findings, f.isError = false) →
          ∃ m l, AddressMap.plan machine.topology = .ok m ∧ machine.banks.outcome = .ok l ∧
            ReachesOneBank machine m l) ∧
      ∃ script, regionsOf? script = some (memoryMap.map Prod.snd) ∧
        ∀ m : AddressMap, (render m).outcome = .ok script := by
  refine ⟨fun m => ⟨outcome_regions m, matchesMap m⟩, fun machine findings h hsound => ?_,
    _, regionsOf?_text readable_memoryMap, outcome_render⟩
  obtain ⟨m, hplan, hfindings⟩ := Machine.exists_plan_of_validate h hsound
  have hm := AddressMap.topology_of_plan hplan
  have hserves := Machine.serves_of_findings hfindings
  obtain ⟨l, hl, horder, hanswers⟩ := Machine.lists_banksOn hm hserves
  exact ⟨m, l, hplan, (Machine.banks_of_plan hplan).trans hl,
    reachesOneBank hm (Machine.ownedOnce_of_answers hm hserves horder hanswers)⟩

/-- The last byte of an L2 scratchpad, for the last core of the machine. -/
theorem memoryMap_agrees_uneven :
    Machine.uneven.validate.outcome = .ok [] ∧
      ∃ l word b, Machine.uneven.banks.outcome = .ok l ∧
        AddressMap.uneven.toAbsolute 0x20002FFF ⟨2, 4, 6⟩ = .ok word ∧
        l.filter (·.range.owns word) = [b] ∧ b.site = .ofOwner .l2sp ⟨2, 4, 6⟩ b.index := by
  have h : Machine.uneven.validate.outcome = .ok [] :=
    Machine.validate_of_no_error rfl Machine.uneven_no_error
  have hcore : Machine.uneven.topology.HasCore ⟨2, 4, 6⟩ := fun level => by cases level <;> decide
  obtain ⟨m, l, hplan, hl, hreaches⟩ := memoryMap_agrees.2.1 Machine.uneven [] h (by simp)
  obtain rfl : AddressMap.uneven = m :=
    Except.ok.inj ((rfl : AddressMap.plan Machine.uneven.topology = _).symm.trans hplan)
  obtain ⟨word, b, hword, hfilter, hsite⟩ :=
    hreaches ⟨2, 4, 6⟩ hcore (.l2sp, ⟨"L2SP_VMA", "rw", 0x20000000, 0x20000000⟩) (by decide)
      0x20002FFF (by decide) (by decide)
  exact ⟨h, l, word, b, hl, hword, hfilter, hsite⟩

end Firmware.LinkerScript

end TieredMemory
