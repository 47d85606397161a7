import Mathlib.Data.List.Nodup
import TieredMemory.Machine.Banks

/-!
# Which banks a machine has

A site is a bank without its range. The sites of a machine are listed in the order of its banks,
each once, and there is one for every tier, owner and index below the described counts.
-/
set_option autoImplicit false

namespace TieredMemory

structure Site where
  tier : Tier
  pxn : UInt64
  pod : Option UInt64
  core : Option UInt64
  index : UInt64
  deriving DecidableEq

def Bank.site (b : Bank) : Site := ⟨b.tier, b.pxn, b.pod, b.core, b.index⟩

namespace Site

/-- The site of a bank that `owner` has or shares. -/
def ofOwner (tier : Tier) (owner : CoreId) (index : UInt64) : Site :=
  ⟨tier, owner.pxn, if tier.carries .pod then some owner.pod else none,
    if tier.carries .core then some owner.core else none, index⟩

/-- The address of an offset in the memory that the bank belongs to. -/
def address (s : Site) (offset : UInt64) : Address :=
  ⟨s.tier, .absolute, offset, some s.pxn, s.pod, s.core, none⟩

theorem address_ofOwner (tier : Tier) (owner : CoreId) (index offset : UInt64) :
    (ofOwner tier owner index).address offset = .absoluteFor tier owner offset := by
  cases tier <;> rfl

/-- The addresses of two sites can only be the same if the sites differ in the index at most. -/
theorem eq_of_address_eq {s t : Site} {offset offset' : UInt64}
    (h : s.address offset = t.address offset') (hindex : s.index = t.index) : s = t := by
  obtain ⟨tier, pxn, pod, core, index⟩ := s
  cases h
  cases hindex
  rfl

end Site

namespace Machine

/-- All words below a count. -/
def indices (count : UInt64) : List UInt64 := (List.range count.toNat).map UInt64.ofNat

variable (machine : Machine)

def coreSites (pxn pod core : UInt64) : List Site :=
  [⟨.l1sp, pxn, some pod, some core, 0⟩, ⟨.ctrl, pxn, some pod, some core, 0⟩]

def podSites (pxn pod : UInt64) : List Site :=
  ((indices machine.l2sp.banks).map fun index => ⟨.l2sp, pxn, some pod, none, index⟩) ++
    (indices machine.cores).flatMap (coreSites pxn pod)

def pxnSites (pxn : UInt64) : List Site :=
  ((indices machine.dram.banks).map fun index => ⟨.dram, pxn, none, none, index⟩) ++
    (indices machine.pods).flatMap (machine.podSites pxn)

/-- Per PXN its DRAM banks, then per pod its L2 banks, then per core its L1 scratchpad and its
control registers. -/
def sites : List Site := (indices machine.pxns).flatMap machine.pxnSites

/-- The banks that the description of a machine counts. -/
inductive HasSite : Site → Prop where
  | dram {pxn index : UInt64} (hpxn : pxn < machine.pxns) (hindex : index < machine.dram.banks) :
    HasSite ⟨.dram, pxn, none, none, index⟩
  | l2sp {pxn pod index : UInt64} (hpxn : pxn < machine.pxns) (hpod : pod < machine.pods)
    (hindex : index < machine.l2sp.banks) : HasSite ⟨.l2sp, pxn, some pod, none, index⟩
  | l1sp {pxn pod core : UInt64} (hpxn : pxn < machine.pxns) (hpod : pod < machine.pods)
    (hcore : core < machine.cores) : HasSite ⟨.l1sp, pxn, some pod, some core, 0⟩
  | ctrl {pxn pod core : UInt64} (hpxn : pxn < machine.pxns) (hpod : pod < machine.pods)
    (hcore : core < machine.cores) : HasSite ⟨.ctrl, pxn, some pod, some core, 0⟩

section Indices

variable {count i : UInt64}

@[simp] theorem length_indices : (indices count).length = count.toNat := by
  rw [indices, List.length_map, List.length_range]

@[simp] theorem mem_indices : i ∈ indices count ↔ i < count := by
  simp only [indices, List.mem_map, List.mem_range, UInt64.lt_iff_toNat_lt]
  constructor
  · rintro ⟨n, hn, rfl⟩
    rwa [UInt64.toNat_ofNat_of_lt' (Nat.lt_trans hn count.toNat_lt)]
  · intro h
    exact ⟨i.toNat, h, UInt64.ofNat_toNat⟩

theorem nodup_indices : (indices count).Nodup := by
  refine List.Nodup.map_on (fun a ha b hb h => ?_) List.nodup_range
  have hlt := fun n (hn : n ∈ List.range count.toNat) =>
    UInt64.toNat_ofNat_of_lt' (Nat.lt_trans (List.mem_range.mp hn) count.toNat_lt)
  rw [← hlt a ha, ← hlt b hb, h]

/-- Lists that tell which index they belong to are apart. -/
theorem nodup_flatMap_indices {f : UInt64 → List Site} (key : Site → UInt64)
    (hkey : ∀ i, ∀ s ∈ f i, key s = i) (hf : ∀ i, (f i).Nodup) :
    ((indices count).flatMap f).Nodup := by
  refine List.nodup_flatMap.mpr ⟨fun i _ => hf i, nodup_indices.imp fun hne s hi hj => ?_⟩
  exact hne ((hkey _ s hi).symm.trans (hkey _ s hj))

end Indices

theorem length_podSites (pxn pod : UInt64) :
    (machine.podSites pxn pod).length = machine.l2sp.banks.toNat + 2 * machine.cores.toNat := by
  simp [podSites, coreSites, List.length_flatMap, Nat.mul_comm]

theorem length_pxnSites (pxn : UInt64) : (machine.pxnSites pxn).length =
    machine.dram.banks.toNat +
      machine.pods.toNat * (machine.l2sp.banks.toNat + 2 * machine.cores.toNat) := by
  simp [pxnSites, List.length_flatMap, length_podSites]

theorem length_sites : machine.sites.length = machine.pxns.toNat * (machine.dram.banks.toNat +
    machine.pods.toNat * (machine.l2sp.banks.toNat + 2 * machine.cores.toNat)) := by
  simp [sites, List.length_flatMap, length_pxnSites]

section Membership

variable {machine} {pxn pod core : UInt64} {s : Site}

theorem mem_coreSites : s ∈ coreSites pxn pod core ↔
    s = ⟨.l1sp, pxn, some pod, some core, 0⟩ ∨ s = ⟨.ctrl, pxn, some pod, some core, 0⟩ := by
  simp [coreSites]

theorem mem_podSites : s ∈ machine.podSites pxn pod ↔
    (∃ index, index < machine.l2sp.banks ∧ s = ⟨.l2sp, pxn, some pod, none, index⟩) ∨
      ∃ core, core < machine.cores ∧ s ∈ coreSites pxn pod core := by
  simp [podSites, eq_comm]

theorem mem_pxnSites : s ∈ machine.pxnSites pxn ↔
    (∃ index, index < machine.dram.banks ∧ s = ⟨.dram, pxn, none, none, index⟩) ∨
      ∃ pod, pod < machine.pods ∧ s ∈ machine.podSites pxn pod := by
  simp [pxnSites, eq_comm]

theorem mem_sites : s ∈ machine.sites ↔ machine.HasSite s := by
  simp only [sites, List.mem_flatMap, mem_indices]
  constructor
  · rintro ⟨pxn, hpxn, hs⟩
    rcases mem_pxnSites.mp hs with ⟨index, hindex, rfl⟩ | ⟨pod, hpod, hs⟩
    · exact .dram hpxn hindex
    · rcases mem_podSites.mp hs with ⟨index, hindex, rfl⟩ | ⟨core, hcore, hs⟩
      · exact .l2sp hpxn hpod hindex
      · rcases mem_coreSites.mp hs with rfl | rfl
        · exact .l1sp hpxn hpod hcore
        · exact .ctrl hpxn hpod hcore
  · intro h
    cases h with
    | dram hpxn hindex => exact ⟨_, hpxn, mem_pxnSites.mpr (Or.inl ⟨_, hindex, rfl⟩)⟩
    | l2sp hpxn hpod hindex =>
      exact ⟨_, hpxn, mem_pxnSites.mpr
        (Or.inr ⟨_, hpod, mem_podSites.mpr (Or.inl ⟨_, hindex, rfl⟩)⟩)⟩
    | l1sp hpxn hpod hcore =>
      exact ⟨_, hpxn, mem_pxnSites.mpr
        (Or.inr ⟨_, hpod, mem_podSites.mpr (Or.inr ⟨_, hcore, List.mem_cons_self⟩)⟩)⟩
    | ctrl hpxn hpod hcore =>
      exact ⟨_, hpxn, mem_pxnSites.mpr
        (Or.inr ⟨_, hpod, mem_podSites.mpr (Or.inr ⟨_, hcore, mem_coreSites.mpr (Or.inr rfl)⟩)⟩)⟩

theorem pod_of_mem_podSites (h : s ∈ machine.podSites pxn pod) :
    s.tier ≠ .dram ∧ s.pxn = pxn ∧ s.pod = some pod := by
  rcases mem_podSites.mp h with ⟨index, _, rfl⟩ | ⟨core, _, hs⟩
  · exact ⟨by simp, rfl, rfl⟩
  · rcases mem_coreSites.mp hs with rfl | rfl <;> exact ⟨by simp, rfl, rfl⟩

theorem pxn_of_mem_pxnSites (h : s ∈ machine.pxnSites pxn) : s.pxn = pxn := by
  rcases mem_pxnSites.mp h with ⟨index, _, rfl⟩ | ⟨pod, _, hs⟩
  · rfl
  · exact (pod_of_mem_podSites hs).2.1

end Membership

theorem nodup_podSites (pxn pod : UInt64) : (machine.podSites pxn pod).Nodup := by
  refine List.nodup_append'.mpr ⟨?_, ?_, ?_⟩
  · exact nodup_indices.map fun a b h => (Site.mk.inj h).2.2.2.2
  · refine nodup_flatMap_indices (fun s => s.core.getD 0) ?_ fun core => by simp [coreSites]
    intro core s hs
    rcases mem_coreSites.mp hs with rfl | rfl <;> rfl
  · intro s hl hr
    obtain ⟨index, _, rfl⟩ := List.mem_map.mp hl
    obtain ⟨core, _, hs⟩ := List.mem_flatMap.mp hr
    simp [coreSites] at hs

theorem nodup_pxnSites (pxn : UInt64) : (machine.pxnSites pxn).Nodup := by
  refine List.nodup_append'.mpr ⟨?_, ?_, ?_⟩
  · exact nodup_indices.map fun a b h => (Site.mk.inj h).2.2.2.2
  · refine nodup_flatMap_indices (fun s => s.pod.getD 0) ?_ (machine.nodup_podSites pxn)
    intro pod s hs
    rw [(pod_of_mem_podSites hs).2.2]
    rfl
  · intro s hl hr
    obtain ⟨index, _, rfl⟩ := List.mem_map.mp hl
    obtain ⟨pod, _, hs⟩ := List.mem_flatMap.mp hr
    exact (pod_of_mem_podSites hs).1 rfl

/-- No bank is listed twice. -/
theorem nodup_sites : machine.sites.Nodup :=
  nodup_flatMap_indices (·.pxn) (fun _ _ hs => pxn_of_mem_pxnSites hs) machine.nodup_pxnSites

end Machine

end TieredMemory
