import TieredMemory.Proofs.AddressMap.Window
import TieredMemory.Proofs.Range.Stripes

/-!
# The words of one bank

The offsets of a region are mapped to words one after another, so the envelope of a bank becomes the
envelope of its words, and the bank owns the words of exactly the offsets at which it is its turn.
-/
set_option autoImplicit false

namespace TieredMemory

namespace Region

variable {m : AddressMap} {r : Region} {tier : Tier} {owner : CoreId} {bank : UInt64} {off : Field}

/-- A bank that fits the window of its owner has a range, and owns exactly the words of the offsets
at which it is its turn. -/
theorem exists_placeFor (howner : m.topology.HasOwner tier owner)
    (ho : Field.offset? .absolute tier = some off)
    (hfits : ∀ offset, offset < r.totalSize → (m.layout.field off).fits offset = true)
    (hw : r.WholeStripes) (hb : bank < r.banks) :
    ∃ range, (r.placeFor m tier owner bank).outcome = .ok range ∧
      ∀ word, range.owns word = true ↔ ∃ offset, offset < r.totalSize ∧
        r.turn offset.toNat = bank.toNat ∧
          m.encode (.absoluteFor tier owner offset) = .ok word := by
  obtain ⟨base, hbase⟩ := AddressMap.exists_base_of_owner howner ho
  obtain ⟨first, last, henv, _, hlast, hle⟩ := exists_envelope hw.comesOutEven.hasRoom hb
  have hlast_lt : last < r.totalSize := UInt64.lt_iff_toNat_lt.mpr (by omega)
  have hfirst_lt : first < r.totalSize :=
    UInt64.lt_of_le_of_lt (UInt64.le_iff_toNat_le.mpr hle) hlast_lt
  obtain ⟨start, hstart, hstart'⟩ := hbase first (hfits first hfirst_lt)
  obtain ⟨stop, hstop, hstop'⟩ := hbase last (hfits last hlast_lt)
  refine ⟨⟨start, stop, r.stripe, r.step⟩, ?_, fun word => ?_⟩
  · simp [placeFor, place, henv, AddressMap.encodeLogged, hstart, hstop, Except.bind,
      Except.map]
  · have howns : ∀ {a : UInt64} {offset : Nat}, a.toNat = base.toNat + offset →
        ((⟨start, stop, r.stripe, r.step⟩ : AddressRange).owns a = true ↔
          offset < r.totalSize.toNat ∧ r.turn offset = bank.toNat) :=
      owns_iff_turn hw.comesOutEven hb henv hstart' hstop' rfl rfl
    constructor
    · intro h
      obtain ⟨hlo, hhi, _⟩ := (AddressRange.owns_iff _ _).mp h
      -- a word of the envelope is the word of some offset in the region
      have hge : base.toNat ≤ word.toNat := by simp only at hlo; omega
      have hsub : (word - base).toNat = word.toNat - base.toNat := Word.toNat_sub_of_le hge
      have hword : word.toNat = base.toNat + (word - base).toNat := by omega
      have hlt : word - base < r.totalSize :=
        UInt64.lt_of_le_of_lt (UInt64.le_iff_toNat_le.mpr (by simp only at hhi; omega)) hlast_lt
      obtain ⟨raw, hraw, hraw'⟩ := hbase _ (hfits _ hlt)
      have heq : raw = word := UInt64.toNat_inj.mp (hraw'.trans hword.symm)
      exact ⟨_, hlt, ((howns hword).mp h).2, heq ▸ hraw⟩
    · rintro ⟨offset, hlt, hturn, hword⟩
      obtain ⟨raw, hraw, hraw'⟩ := hbase _ (hfits _ hlt)
      cases hraw.symm.trans hword
      exact (howns hraw').mpr ⟨UInt64.lt_iff_toNat_lt.mp hlt, hturn⟩

end Region

end TieredMemory
