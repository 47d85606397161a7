import TieredMemory.Proofs.Machine.Enumeration

/-!
# Every byte of a machine has one owner

In a machine without errors no word is owned twice, every byte of every memory is owned by the bank
that the description gives it to, and nothing else is owned.
-/
set_option autoImplicit false

namespace TieredMemory

namespace Machine

variable {machine : Machine} {m : AddressMap} {l : List Bank}

section Owners

variable {tier : Tier} {owner : CoreId} {index : UInt64}

theorem hasSite_ofOwner (howner : machine.topology.HasOwner tier owner)
    (hindex : index < machine.bankCount tier) : machine.HasSite (.ofOwner tier owner index) := by
  have hzero : ∀ {i : UInt64}, i < 1 → i = 0 := fun hi =>
    UInt64.toNat_inj.mp (Nat.lt_one_iff.mp (UInt64.lt_iff_toNat_lt.mp hi))
  cases tier with
  | dram => exact .dram (howner .pxn rfl) hindex
  | l2sp => exact .l2sp (howner .pxn rfl) (howner .pod rfl) hindex
  | l1sp =>
    cases hzero hindex
    exact .l1sp (howner .pxn rfl) (howner .pod rfl) (howner .core rfl)
  | ctrl =>
    cases hzero hindex
    exact .ctrl (howner .pxn rfl) (howner .pod rfl) (howner .core rfl)

/-- Every site of the machine is that of a bank of some owner. -/
theorem exists_ofOwner {s : Site} (h : machine.HasSite s) :
    ∃ owner, s = .ofOwner s.tier owner s.index := by
  cases h with
  | dram => exact ⟨⟨_, 0, 0⟩, rfl⟩
  | l2sp => exact ⟨⟨_, _, 0⟩, rfl⟩
  | l1sp => exact ⟨⟨_, _, _⟩, rfl⟩
  | ctrl => exact ⟨⟨_, _, _⟩, rfl⟩

/-- Addresses of the machine's memories are read back from their words. -/
theorem decode_of_encode_site {s : Site} (hsite : machine.HasSite s) {offset word : UInt64}
    (h : m.encode (s.address offset) = .ok word) (issuer : CoreId) :
    m.decode word issuer = s.address offset := by
  obtain ⟨owner, hs⟩ := exists_ofOwner hsite
  have hw : (s.address offset).WellFormed := by
    rw [hs, Site.address_ofOwner]
    exact Address.wellFormed_absoluteFor _ _ _
  exact AddressMap.decode_of_encode hw h issuer

end Owners

/-- Two banks that own the same word are the same bank: the word tells memory and offset, and the
offset tells the bank. -/
theorem site_eq_of_owns {b b' : Bank} {word : UInt64} (hb : b.Answers machine m)
    (hb' : b'.Answers machine m) (hsite : machine.HasSite b.site)
    (hsite' : machine.HasSite b'.site) (h : b.range.owns word = true)
    (h' : b'.range.owns word = true) : b.site = b'.site := by
  obtain ⟨offset, _, hindex, hword⟩ := (hb word).mp h
  obtain ⟨offset', _, hindex', hword'⟩ := (hb' word).mp h'
  have haddress : b.site.address offset = b'.site.address offset' :=
    (decode_of_encode_site hsite hword .first).symm.trans
      (decode_of_encode_site hsite' hword' .first)
  have htier : b.tier = b'.tier := congrArg Address.tier haddress
  have hoffset : offset = offset' := congrArg Address.offset haddress
  refine Site.eq_of_address_eq haddress (UInt64.toNat_inj.mp ?_)
  show b.index.toNat = b'.index.toNat
  rw [← hindex, ← hindex', htier, hoffset]

theorem length_le_one_of_same_site {l : List Bank} (hn : (l.map Bank.site).Nodup)
    (heq : ∀ b ∈ l, ∀ b' ∈ l, b.site = b'.site) : l.length ≤ 1 := by
  match l with
  | [] => exact Nat.zero_le 1
  | [_] => exact Nat.le_refl 1
  | b :: b' :: rest =>
    have hsame : b.site = b'.site :=
      heq b List.mem_cons_self b' (List.mem_cons_of_mem _ List.mem_cons_self)
    exact absurd (hsame ▸ List.mem_cons_self) (List.nodup_cons.mp hn).1

/-- Among banks of different sites at most one owns a word. -/
theorem owners_le_one (hnodup : (l.map Bank.site).Nodup)
    (hsites : ∀ b ∈ l, machine.HasSite b.site) (hanswers : ∀ b ∈ l, b.Answers machine m)
    (word : UInt64) : (l.filter (·.range.owns word)).length ≤ 1 := by
  have hn : ((l.filter (·.range.owns word)).map Bank.site).Nodup :=
    hnodup.sublist (List.filter_sublist.map _)
  have heq : ∀ b ∈ l.filter (·.range.owns word), ∀ b' ∈ l.filter (·.range.owns word),
      b.site = b'.site := by
    intro b hb b' hb'
    obtain ⟨hb, hown⟩ := List.mem_filter.mp hb
    obtain ⟨hb', hown'⟩ := List.mem_filter.mp hb'
    exact site_eq_of_owns (hanswers b hb) (hanswers b' hb') (hsites b hb) (hsites b' hb') hown hown'
  exact length_le_one_of_same_site hn heq

/-- An address of one of the machine's memories has a word, and a site that owns it. -/
theorem exists_site (hm : m.topology = machine.topology)
    (hs : ∀ tier, ∃ r, machine.Serves m.layout tier r) {a : Address} (hw : a.WellFormed)
    (habs : a.mode = .absolute) (hin : m.Inside a) (hlt : a.offset < machine.tierSize a.tier) :
    ∃ word site, m.encode a = .ok word ∧ machine.HasSite site ∧ site.address a.offset = a ∧
      site.index.toNat = machine.bankAt a.tier a.offset.toNat := by
  obtain ⟨owner, ha⟩ := Address.exists_absoluteFor hw habs
  obtain ⟨r, hr⟩ := hs a.tier
  have howner : m.topology.HasOwner a.tier owner :=
    (AddressMap.inside_absoluteFor_iff a.tier owner a.offset).mp (ha ▸ hin)
  obtain ⟨off, ho⟩ := Field.exists_absolute_offset a.tier
  obtain ⟨base, hbase⟩ := AddressMap.exists_base_of_owner howner ho
  obtain ⟨word, hword, _⟩ :=
    hbase a.offset (offset_fits_of_lt_window ho (UInt64.lt_of_lt_of_le hlt hr.window))
  have hbank : machine.bankAt a.tier a.offset.toNat < (machine.bankCount a.tier).toNat := by
    rw [← hr.turn, ← hr.banks]
    exact r.turn_lt _
  have hindex := UInt64.toNat_ofNat_of_lt' (Nat.lt_trans hbank (Word.lt_size _))
  refine ⟨word, .ofOwner a.tier owner (UInt64.ofNat (machine.bankAt a.tier a.offset.toNat)),
    ha ▸ hword, hasSite_ofOwner (hm ▸ howner) ?_, ?_, hindex⟩
  · rw [UInt64.lt_iff_toNat_lt, hindex]
    exact hbank
  · rw [Site.address_ofOwner, ← ha]

/-- A machine that checks without an error is planned and sound in its sizes. -/
theorem exists_plan_of_validate {findings : List Finding}
    (h : machine.validate.outcome = .ok findings) (hsound : ∀ f ∈ findings, f.isError = false) :
    ∃ m, AddressMap.plan machine.topology = .ok m ∧
      ∀ f ∈ machine.checkThreads ++ machine.checkSizes m.layout, f.isError = false := by
  cases hplan : AddressMap.plan machine.topology with
  | error cause =>
    cases (validate_of_plan_error hplan).symm.trans h
    cases hsound (.unplannable cause) (by simp)
  | ok m =>
    cases (validate_of_plan hplan).symm.trans h
    exact ⟨m, rfl, hsound⟩

variable (machine m l) in
/-- Every byte of the machine has one bank in the list. -/
structure OwnedOnce : Prop where
  atMostOne : ∀ word, (l.filter (·.range.owns word)).length ≤ 1
  /-- A byte below the size of its memory has a word, which only the bank of its stripe owns. -/
  owner : ∀ a : Address, a.WellFormed → a.mode = .absolute →
    (∀ level value, a.coordinate level = some value → value < machine.topology.count level) →
    a.offset < machine.tierSize a.tier →
      ∃ word b, m.encode a = .ok word ∧ l.filter (·.range.owns word) = [b] ∧
        b.site.address a.offset = a ∧ b.index.toNat = machine.bankAt a.tier a.offset.toNat
  /-- Nothing else is owned. -/
  owned : ∀ b ∈ l, ∀ word, b.range.owns word = true → ∀ issuer,
    ∃ offset, offset < machine.tierSize b.tier ∧ m.decode word issuer = b.site.address offset

theorem ownedOnce_of_answers (hm : m.topology = machine.topology)
    (hs : ∀ tier, ∃ r, machine.Serves m.layout tier r) (horder : l.map Bank.site = machine.sites)
    (hanswers : ∀ b ∈ l, b.Answers machine m) : machine.OwnedOnce m l := by
  have hsites : ∀ b ∈ l, machine.HasSite b.site := fun b hb =>
    mem_sites.mp (horder ▸ List.mem_map_of_mem hb)
  have hone := owners_le_one (horder ▸ machine.nodup_sites) hsites hanswers
  refine ⟨hone, fun a hw habs hin hlt => ?_, fun b hb word hown issuer => ?_⟩
  · obtain ⟨word, site, hword, hsite, haddress, hindex⟩ :=
      exists_site hm hs hw habs (fun level value hv => hm ▸ hin level value hv) hlt
    obtain ⟨b, hb, rfl⟩ := List.mem_map.mp (horder ▸ mem_sites.mpr hsite)
    have htier : b.tier = a.tier := congrArg Address.tier haddress
    have hown : b.range.owns word = true := (hanswers b hb word).mpr
      ⟨a.offset, htier ▸ hlt, htier ▸ hindex.symm, haddress.symm ▸ hword⟩
    have hmem : b ∈ l.filter (·.range.owns word) := List.mem_filter.mpr ⟨hb, hown⟩
    refine ⟨word, b, hword, ?_, haddress, hindex⟩
    obtain ⟨c, hc⟩ := List.length_eq_one_iff.mp
      (Nat.le_antisymm (hone word) (List.length_pos_of_mem hmem))
    rw [hc] at hmem ⊢
    rw [List.mem_singleton.mp hmem]
  · obtain ⟨offset, hlt, _, hword⟩ := (hanswers b hb word).mp hown
    exact ⟨offset, hlt, decode_of_encode_site (hsites b hb) hword issuer⟩

/-- In the list of all banks of a machine that checks without an error, every byte has one owner. -/
theorem single_owner (machine : Machine) {findings : List Finding}
    (h : machine.validate.outcome = .ok findings) (hsound : ∀ f ∈ findings, f.isError = false) :
    ∃ m l, AddressMap.plan machine.topology = .ok m ∧ machine.banks.outcome = .ok l ∧
      machine.OwnedOnce m l := by
  obtain ⟨m, hplan, hfindings⟩ := exists_plan_of_validate h hsound
  have hm := AddressMap.topology_of_plan hplan
  have hs := serves_of_findings hfindings
  obtain ⟨l, hl, horder, hanswers⟩ := lists_banksOn hm hs
  exact ⟨m, l, hplan, (banks_of_plan hplan).trans hl, ownedOnce_of_answers hm hs horder hanswers⟩

theorem single_owner_uneven :
    uneven.validate.outcome = .ok [] ∧ ∃ m l, AddressMap.plan uneven.topology = .ok m ∧
      uneven.banks.outcome = .ok l ∧ uneven.OwnedOnce m l := by
  have h : uneven.validate.outcome = .ok [] := validate_of_no_error rfl uneven_no_error
  exact ⟨h, single_owner uneven h (by simp)⟩

end Machine

end TieredMemory
