import TieredMemory.Proofs.Machine.Enumeration
import TieredMemory.Proofs.Word.Digits

/-!
# Labels of banks

A label names the tier of a bank and what is known of its place, each level by its own name and the
number behind it. Nothing of that can be read in two ways, so banks with the same label are the same
but for their ranges. A list of banks has each place once, whether or not the machine was checked:
a region may have other banks than the description counts, but none of them twice.
-/
set_option autoImplicit false

namespace TieredMemory

namespace Bank

/-- The coordinates are those that the tier carries, and what a core has alone is bank 0. -/
structure Shaped (b : Bank) : Prop where
  pod : b.pod.isSome = b.tier.carries .pod
  core : b.core.isSome = b.tier.carries .core
  index : b.tier.carries .core = true → b.index = 0

/-! ## Reading a label -/

/-- The end of a label: the tier, and the index if the tier has more than one bank. -/
def ending (tier : Tier) (index : UInt64) : List Char :=
  '_' :: (tier.key.toList ++ if tier.carries .core then [] else (Word.decimal index).toList)

theorem toList_labelPart (level : String) (v : Option UInt64) :
    (labelPart level v).toList = numberBetween ('_' :: level.toList) [] v := by
  cases v with
  | none => rfl
  | some v => simp [labelPart, numberBetween]

theorem toList_label (b : Bank) : b.label.toList = "pxn".toList ++ ((Word.decimal b.pxn).toList ++
    (numberBetween "_pod".toList [] b.pod ++
      (numberBetween "_core".toList [] b.core ++ ending b.tier b.index))) := by
  have hpod := toList_labelPart "pod" b.pod
  have hcore := toList_labelPart "core" b.core
  unfold label
  cases b.tier <;> simp [hpod, hcore, ending, Tier.key, Tier.carries]

variable {tier tier' : Tier} {index index' : UInt64}

theorem follows_ending (tier : Tier) (index : UInt64) :
    Follows "_core".toList [] (ending tier index) where
  opening := by cases tier <;> simp [ending, Tier.key]
  digit := by simp [ending]

theorem follows_core (core : Option UInt64) (tier : Tier) (index : UInt64) :
    Follows "_pod".toList [] (numberBetween "_core".toList [] core ++ ending tier index) where
  opening := by cases core <;> cases tier <;> simp [numberBetween, ending, Tier.key]
  digit := by cases core <;> simp [numberBetween, ending]

theorem head_pod (pod core : Option UInt64) (tier : Tier) (index : UInt64) :
    ∀ c ∈ (numberBetween "_pod".toList [] pod ++
      (numberBetween "_core".toList [] core ++ ending tier index)).head?, c.isAlphanum = false := by
  cases pod with
  | none => exact (follows_core core tier index).digit
  | some pod => simp [numberBetween]

/-- The end of a label tells the tier, and the index in a tier that has it there. -/
theorem ending_inj (h : ending tier index = ending tier' index') :
    tier = tier' ∧ (tier.carries .core = false → index = index') := by
  have hlength : ∀ t : Tier, t.key.toList.length = 4 := fun t => by cases t <;> simp [Tier.key]
  obtain ⟨hkey, hrest⟩ :=
    List.append_inj (List.tail_eq_of_cons_eq h) ((hlength tier).trans (hlength tier').symm)
  obtain rfl : tier = tier' := by
    cases tier <;> cases tier' <;> simp [Tier.key] at hkey ⊢
  refine ⟨rfl, fun hc => ?_⟩
  rw [hc, if_neg Bool.false_ne_true, if_neg Bool.false_ne_true] at hrest
  exact (decimal_append_inj (x := []) (y := []) (by simp) (by simp) (by rw [hrest])).1

/-- The parts of a bank that its label tells. -/
theorem parts_of_label {a b : Bank} (h : a.label = b.label) :
    a.tier = b.tier ∧ a.pxn = b.pxn ∧ a.pod = b.pod ∧ a.core = b.core ∧
      (a.tier.carries .core = false → a.index = b.index) := by
  have hchars := congrArg String.toList h
  rw [toList_label, toList_label] at hchars
  obtain ⟨hpxn, hrest⟩ := decimal_append_inj (head_pod _ _ _ _) (head_pod _ _ _ _)
    (List.append_cancel_left hchars)
  obtain ⟨hpod, hrest⟩ :=
    numberBetween_append_inj (follows_core _ _ _) (follows_core _ _ _) hrest
  obtain ⟨hcore, hrest⟩ :=
    numberBetween_append_inj (follows_ending _ _) (follows_ending _ _) hrest
  obtain ⟨htier, hindex⟩ := ending_inj hrest
  exact ⟨htier, hpxn, hpod, hcore, hindex⟩

theorem site_eq_of_label {a b : Bank} (ha : a.Shaped) (hb : b.Shaped) (h : a.label = b.label) :
    a.site = b.site := by
  obtain ⟨htier, hpxn, hpod, hcore, hindex⟩ := parts_of_label h
  have hi : a.index = b.index := by
    cases hc : a.tier.carries .core with
    | false => exact hindex hc
    | true => rw [ha.index hc, hb.index (htier ▸ hc)]
  rw [site, site, htier, hpxn, hpod, hcore, hi]

end Bank

namespace Machine

variable {machine : Machine} {m : AddressMap}

/-! ## The places in a list -/

/-- If the run ends with a list, its banks are at the sites. -/
def Lays (x : Logged (Failure AddressError) (List Bank)) (sites : List Site) : Prop :=
  ∀ l, x.outcome = .ok l → l.map Bank.site = sites

theorem gathers_lays : Gathers Lays where
  nil := fun l hl => by
    cases hl
    rfl
  append := by
    intro x y s t hx hy l h
    rw [Logged.outcome_bind] at h
    obtain ⟨a, ha, h⟩ := exists_of_bind_eq_ok h
    rw [Logged.outcome_bind] at h
    obtain ⟨b, hb, h⟩ := exists_of_bind_eq_ok h
    cases h
    rw [List.map_append, hx a ha, hy b hb]

theorem lays_bankOf (r : Region) (tier : Tier) (owner : CoreId) (index : UInt64) :
    Lays (bankOf m r tier owner index) [.ofOwner tier owner index] := by
  intro l h
  rw [bankOf, Logged.outcome_bind] at h
  obtain ⟨range, _, h⟩ := exists_of_bind_eq_ok h
  cases h
  rfl

/-- The machine with the banks that its regions have. -/
def withBanks (machine : Machine) (l2sp dram : UInt64) : Machine :=
  { machine with
    l2sp := { machine.l2sp with banks := l2sp }
    dram := { machine.dram with banks := dram } }

/-- A list of the banks has the sites of the machine, as its regions count them. -/
theorem exists_sites_of_banksOn {l : List Bank} (h : (machine.banksOn m).outcome = .ok l) :
    ∃ l2sp dram, l.map Bank.site = (machine.withBanks l2sp dram).sites := by
  unfold banksOn at h
  rw [Logged.outcome_bind] at h
  obtain ⟨l1sp, _, h⟩ := exists_of_bind_eq_ok h
  rw [Logged.outcome_bind] at h
  obtain ⟨ctrl, _, h⟩ := exists_of_bind_eq_ok h
  rw [Logged.outcome_bind] at h
  obtain ⟨l2sp, _, h⟩ := exists_of_bind_eq_ok h
  rw [Logged.outcome_bind] at h
  obtain ⟨dram, _, h⟩ := exists_of_bind_eq_ok h
  rw [Logged.outcome_bind] at h
  obtain ⟨listed, hlisted, h⟩ := exists_of_bind_eq_ok h
  cases h
  refine ⟨l2sp.banks, dram.banks, gathers_lays.instances (fun pxn _ => ?_) l hlisted⟩
  -- the loops of the run are nested as the parts of the list are
  rw [pxnSites, List.map_eq_flatMap]
  refine gathers_lays.append (gathers_lays.instances fun index _ => ?_)
    (gathers_lays.instances fun pod _ => ?_)
  · exact lays_bankOf dram .dram ⟨pxn, 0, 0⟩ index
  · rw [podSites, List.map_eq_flatMap]
    refine gathers_lays.append (gathers_lays.instances fun index _ => ?_)
      (gathers_lays.instances fun core _ => ?_)
    · exact lays_bankOf l2sp .l2sp ⟨pxn, pod, 0⟩ index
    · exact gathers_lays.append (lays_bankOf l1sp .l1sp ⟨pxn, pod, core⟩ 0)
        (lays_bankOf ctrl .ctrl ⟨pxn, pod, core⟩ 0)

theorem shaped_of_hasSite {b : Bank} (h : machine.HasSite b.site) : b.Shaped := by
  obtain ⟨tier, pxn, pod, core, index, range⟩ := b
  cases h <;> exact ⟨rfl, rfl, by simp [Tier.carries]⟩

/-- Banks with the coordinates of their tier that have the same label are the same bank, and in a
list of the banks of a machine, under whichever map, no label stands twice. -/
theorem labels_identify (machine : Machine) (m : AddressMap) :
    (∀ a b : Bank, a.Shaped → b.Shaped → a.label = b.label → a.site = b.site) ∧
      ∀ l, (machine.banksOn m).outcome = .ok l →
        (l.map Bank.label).Nodup ∧ ∀ b ∈ l, b.Shaped := by
  refine ⟨fun a b => Bank.site_eq_of_label, fun l h => ?_⟩
  obtain ⟨l2sp, dram, hsites⟩ := exists_sites_of_banksOn h
  have hshaped : ∀ b ∈ l, b.Shaped := fun b hb =>
    shaped_of_hasSite (mem_sites.mp (hsites ▸ List.mem_map_of_mem hb))
  have hnodup : (l.map Bank.site).Nodup := hsites ▸ nodup_sites _
  refine ⟨?_, hshaped⟩
  have hpairs := (List.pairwise_map.mp hnodup).imp_of_mem fun {a b} ha hb hne heq =>
    hne (Bank.site_eq_of_label (hshaped a ha) (hshaped b hb) heq)
  exact List.pairwise_map.mpr hpairs

/-- Two hundred and seventy banks, and as many labels. -/
theorem labels_identify_uneven :
    ∃ l, (uneven.banksOn .uneven).outcome = .ok l ∧ l.length = 270 ∧ (l.map Bank.label).Nodup := by
  have hplan : AddressMap.plan uneven.topology = .ok AddressMap.uneven := rfl
  obtain ⟨l, hl, horder, _⟩ :=
    lists_banksOn (AddressMap.topology_of_plan hplan) (serves_of_findings uneven_no_error)
  exact ⟨l, hl, (listsAllBanks_of_order horder).length, ((labels_identify uneven .uneven).2 l hl).1⟩

end Machine

end TieredMemory
