import Mathlib.Data.Set.Defs
import TieredMemory.Proofs.AddressMap.Window

/-!
# Windows coincide or keep apart

The words of an owner's addresses are an interval: one word for every value of the offset field,
from the word of offset 0 on. A word is read as the address it was made from, so two windows with a
word in common are windows of the same owner.
-/
set_option autoImplicit false

namespace TieredMemory

namespace Address

/-- The addresses differ in nothing but the byte and the core that asks for it. -/
structure SameWindow (a b : Address) : Prop where
  mode : a.mode = b.mode
  tier : a.tier = b.tier
  coordinates : ∀ level, a.coordinate level = b.coordinate level

variable {a : Address}

theorem wellFormed_offset (h : a.WellFormed) (offset : UInt64) :
    ({ a with offset := offset } : Address).WellFormed :=
  ⟨h.coordinates, h.issuer⟩

theorem sameWindow_withIssuer (a : Address) (issuer : CoreId) :
    (a.withIssuer issuer).SameWindow a := by
  unfold withIssuer
  split
  · exact ⟨rfl, rfl, fun _ => rfl⟩
  · exact ⟨rfl, rfl, fun _ => rfl⟩

end Address

/-- The offset of every encoding leaves the flags at the top of the word free. -/
theorem Layout.Planned.offset_bits_le {t : Topology} {l : Layout} (h : Layout.Planned t l)
    {mode : Mode} {tier : Tier} {f : Field} (hf : Field.offset? mode tier = some f) :
    (l.field f).bits ≤ 61 := by
  have hx := h.pxn
  have hp := h.pod
  have hd := h.dramOffset
  have hl := h.l2spOffset
  cases mode <;> cases tier <;> cases hf <;>
    simp only [Layout.field, Bitfield.bits, Bitfield.span] <;>
    omega

namespace AddressMap

variable (m : AddressMap) (a : Address)

/-- The words of an address with any byte in place of its own. -/
def window : Set UInt64 := {raw | ∃ offset, m.encode { a with offset := offset } = .ok raw}

/-- The window is the interval of `size` words from `base` on. -/
structure Interval (base size : UInt64) : Prop where
  first : m.encode { a with offset := 0 } = .ok base
  windowSize : m.layout.windowSize a.tier a.mode = .ok size
  /-- The size is exact: the offset field has so many values. -/
  values : ∃ f, m.layout.offsetField a.tier a.mode = .ok f ∧ size.toNat = 2 ^ f.bits
  /-- The last word does not wrap. -/
  room : base.toNat + (size.toNat - 1) < UInt64.size
  words : ∀ raw, raw ∈ m.window a ↔ base ≤ raw ∧ raw ≤ base + (size - 1)

variable {m a}

/-- The number of bytes of a window is a word. -/
theorem exists_windowSize {mode : Mode} {tier : Tier} {off : Field}
    (ho : Field.offset? mode tier = some off) :
    ∃ size, m.layout.windowSize tier mode = .ok size ∧
      size.toNat = 2 ^ (m.layout.field off).bits := by
  have hbits := m.shape.offset_bits_le ho
  have hpow : 2 ^ (m.layout.field off).bits ≤ 2 ^ 61 := Nat.pow_le_pow_right (by decide) hbits
  have hpos := Nat.two_pow_pos (m.layout.field off).bits
  have hmask := Bitfield.toNat_mask (f := m.layout.field off)
  have hone : (1 : UInt64).toNat = 1 := rfl
  have hsum : (m.layout.field off).mask.toNat + (1 : UInt64).toNat < UInt64.size := by
    rw [hmask, hone, Nat.sub_add_cancel hpos]
    exact Nat.lt_of_le_of_lt hpow (by decide)
  refine ⟨(m.layout.field off).mask + 1, ?_, ?_⟩
  · rw [Layout.windowSize, Layout.offsetField, ho]
    show Except.ok (Word.addSaturating _ 1) = _
    rw [Word.addSaturating, if_pos hsum]
  · rw [UInt64.toNat_add, Nat.mod_eq_of_lt hsum, hmask, hone, Nat.sub_add_cancel hpos]

/-- A window as numbers: one word for every value of the offset field. -/
theorem mem_window_iff {off : Field} (ho : Field.offset? a.mode a.tier = some off) {base : UInt64}
    (hbase : ∀ offset, (m.layout.field off).fits offset = true →
      ∃ word, m.encode { a with offset := offset } = .ok word ∧
        word.toNat = base.toNat + offset.toNat) (raw : UInt64) :
    raw ∈ m.window a ↔ base.toNat ≤ raw.toNat ∧
      raw.toNat < base.toNat + 2 ^ (m.layout.field off).bits := by
  obtain ⟨fields, he⟩ := Field.exists_encoding ho
  constructor
  · rintro ⟨offset, h⟩
    obtain ⟨_, hfit, _⟩ := (encode_eq_ok_iff (a := { a with offset := offset }) raw he ho).mp h
    have hlt := (Bitfield.fits_iff offset).mp hfit
    obtain ⟨word, hword, hword'⟩ := hbase offset hfit
    cases hword.symm.trans h
    omega
  · rintro ⟨hlo, hhi⟩
    have hsub : (raw - base).toNat = raw.toNat - base.toNat := Word.toNat_sub_of_le hlo
    have hfit : (m.layout.field off).fits (raw - base) = true :=
      (Bitfield.fits_iff _).mpr (by omega)
    obtain ⟨word, hword, hword'⟩ := hbase (raw - base) hfit
    have hraw : word = raw := UInt64.toNat_inj.mp (by omega)
    exact ⟨raw - base, hraw ▸ hword⟩

theorem exists_interval (hw : a.WellFormed) (hin : m.Inside a) :
    ∃ base size, m.Interval a base size := by
  obtain ⟨fields, he⟩ := exists_fields hw
  obtain ⟨off, ho⟩ := Field.exists_offset he
  obtain ⟨base, hbase⟩ := exists_base hin ho
  obtain ⟨size, hsize, hvalues⟩ := exists_windowSize (m := m) ho
  have hpos := Nat.two_pow_pos (m.layout.field off).bits
  have hzero : (0 : UInt64).toNat = 0 := rfl
  have hlast : (size - 1).toNat = size.toNat - 1 :=
    Word.toNat_sub_one fun hz => by rw [hz, hzero] at hvalues; omega
  -- the word of offset 0 and that of the last offset
  obtain ⟨first, hfirst, hfirst'⟩ := hbase 0 ((Bitfield.fits_iff _).mpr (by omega))
  obtain ⟨top, _, htop⟩ := hbase (size - 1) ((Bitfield.fits_iff _).mpr (by omega))
  have heq : first = base := UInt64.toNat_inj.mp hfirst'
  have hroom : base.toNat + (size.toNat - 1) < UInt64.size := by
    rw [← hlast, ← htop]
    exact Word.lt_size top
  have hend : (base + (size - 1)).toNat = base.toNat + (size.toNat - 1) := by
    rw [UInt64.toNat_add, hlast, Nat.mod_eq_of_lt hroom]
  refine ⟨base, size, heq ▸ hfirst, hsize, ⟨_, by rw [Layout.offsetField, ho], hvalues⟩, hroom,
    fun raw => ?_⟩
  rw [mem_window_iff ho hbase, UInt64.le_iff_toNat_le, UInt64.le_iff_toNat_le, hend]
  omega

/-- A window is chosen by mode, tier and coordinates. -/
theorem window_eq_of_same {b : Address} (h : a.SameWindow b) : m.window a = m.window b := by
  obtain ⟨tier, mode, offset, pxn, pod, core, issuer⟩ := a
  obtain ⟨tier', mode', offset', pxn', pod', core', issuer'⟩ := b
  obtain ⟨hmode, htier, hc⟩ := h
  have hpxn := hc .pxn
  have hpod := hc .pod
  have hcore := hc .core
  simp only [Address.coordinate] at hmode htier hpxn hpod hcore
  subst hmode htier hpxn hpod hcore
  rfl

/-- A word of two windows was made from addresses that differ in the byte at most. -/
theorem same_of_mem_window {b : Address} (ha : a.WellFormed) (hb : b.WellFormed) {raw : UInt64}
    (hraw : raw ∈ m.window a) (hraw' : raw ∈ m.window b) : a.SameWindow b := by
  obtain ⟨offset, h⟩ := hraw
  obtain ⟨offset', h'⟩ := hraw'
  have hread := decode_of_encode (Address.wellFormed_offset ha offset) h .first
  have hread' := decode_of_encode (Address.wellFormed_offset hb offset') h' .first
  have hsame := Address.sameWindow_withIssuer { a with offset := offset } .first
  have hsame' := Address.sameWindow_withIssuer { b with offset := offset' } .first
  rw [← hread] at hsame
  rw [← hread'] at hsame'
  exact ⟨hsame.mode.symm.trans hsame'.mode, hsame.tier.symm.trans hsame'.tier,
    fun level => (hsame.coordinates level).symm.trans (hsame'.coordinates level)⟩

/-- Every window of the machine is an interval as long as its tier and mode say; two windows are the
same or have no word in common. -/
theorem windows_same_or_apart (m : AddressMap) {a b : Address} (ha : a.WellFormed)
    (hina : m.Inside a) (hb : b.WellFormed) (hinb : m.Inside b) :
    (∃ base size, m.Interval a base size) ∧ (∃ base size, m.Interval b base size) ∧
      (a.SameWindow b → m.window a = m.window b) ∧
        (¬ a.SameWindow b → ∀ raw, raw ∈ m.window a → raw ∉ m.window b) :=
  ⟨exists_interval ha hina, exists_interval hb hinb, window_eq_of_same,
    fun hne _ hraw hraw' => hne (same_of_mem_window ha hb hraw hraw')⟩

/-- A core's scratchpad and its control registers have the same coordinates and the same offsets. -/
theorem windows_same_or_apart_one_core :
    let a := Address.absoluteFor .l1sp ⟨2, 4, 6⟩ 0
    let b := Address.absoluteFor .ctrl ⟨2, 4, 6⟩ 0
    a.WellFormed ∧ uneven.Inside a ∧ b.WellFormed ∧ uneven.Inside b ∧
      (∃ base size, uneven.Interval a base size) ∧ (∃ base size, uneven.Interval b base size) ∧
        ∀ raw, raw ∈ uneven.window a → raw ∉ uneven.window b := by
  have howner : ∀ tier, uneven.topology.HasOwner tier ⟨2, 4, 6⟩ :=
    fun tier => Topology.hasOwner (by decide) (fun _ => by decide) (fun _ => by decide)
  have hin := fun tier => (inside_absoluteFor_iff (m := uneven) tier ⟨2, 4, 6⟩ 0).mpr (howner tier)
  have hw := fun tier => Address.wellFormed_absoluteFor tier ⟨2, 4, 6⟩ 0
  obtain ⟨ha, hb, _, hapart⟩ :=
    windows_same_or_apart uneven (hw .l1sp) (hin .l1sp) (hw .ctrl) (hin .ctrl)
  exact ⟨hw .l1sp, hin .l1sp, hw .ctrl, hin .ctrl, ha, hb, hapart fun h => by cases h.tier⟩

end AddressMap

end TieredMemory
