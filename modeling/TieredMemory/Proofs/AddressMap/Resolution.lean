import TieredMemory.Proofs.AddressMap.Window

/-!
# Resolving relative words

A relative word means a byte of the issuing core's own memory. However many bits the coordinates
take, the offset that is left to an absolute address is as wide as the relative one, so a core of
the machine always gets an absolute word; that word depends on the byte and on the coordinates that
the tier carries, and on nothing else of the word or of the core.
-/
set_option autoImplicit false

namespace TieredMemory

/-- The core is one of the machine. -/
def Topology.HasCore (t : Topology) (core : CoreId) : Prop :=
  ∀ level, core.place level < t.count level

theorem Topology.HasCore.hasOwner {t : Topology} {core : CoreId} (h : t.HasCore core)
    (tier : Tier) : t.HasOwner tier core :=
  fun level _ => h level

/-- Bytes of a tier are the same if the offset is, and the owner on every level that counts. -/
theorem Address.absoluteFor_eq_iff {tier tier' : Tier} {core core' : CoreId}
    {offset offset' : UInt64} :
    Address.absoluteFor tier core offset = .absoluteFor tier' core' offset' ↔
      tier = tier' ∧ offset = offset' ∧
        ∀ level, tier.carries level = true → core.place level = core'.place level := by
  constructor
  · intro h
    have htier := congrArg Address.tier h
    simp only [tier_absoluteFor] at htier
    subst htier
    refine ⟨rfl, ?_, fun level hc => ?_⟩
    · have hoffset := congrArg Address.offset h
      cases tier <;> exact hoffset
    · have hplace := congrArg (Address.coordinate · level) h
      simp only [coordinate_absoluteFor, if_pos hc] at hplace
      exact Option.some.inj hplace
  · rintro ⟨rfl, rfl, h⟩
    have hpxn := h .pxn
    have hpod := h .pod
    have hcore := h .core
    cases tier <;> simp_all [absoluteFor, Tier.carries, CoreId.place]

/-- An absolute offset field is at least as wide as the relative one of its tier. -/
theorem Layout.Planned.relative_bits_le {t : Topology} {l : Layout} (h : Layout.Planned t l)
    {tier : Tier} {f g : Field} (hf : Field.offset? .relative tier = some f)
    (hg : Field.offset? .absolute tier = some g) : (l.field f).bits ≤ (l.field g).bits := by
  have hb := h.budget
  have hx := h.pxn
  have hp := h.pod
  have hd := h.dramOffset
  have hl := h.l2spOffset
  cases tier <;> cases hf <;> cases hg <;>
    simp only [Layout.field, Bitfield.bits, Bitfield.span] <;>
    omega

theorem Field.isAbsolute_mem {mode : Mode} {tier : Tier} {fields : List Field}
    (he : Field.encoding? mode tier = some fields) : Field.isAbsolute ∈ fields := by
  cases mode <;> cases tier <;> cases he <;> exact List.mem_cons_self

namespace AddressMap

variable {m : AddressMap} {raw : UInt64} {issuer : CoreId}

/-- Bit 63 tells the modes apart. -/
theorem bit_63_iff (m : AddressMap) (raw : UInt64) (issuer : CoreId) :
    Word.bit raw 63 = true ↔ (m.decode raw issuer).mode = .absolute := by
  obtain ⟨fields, h⟩ := decode_readAs (m := m) raw issuer
  have hflag := h.contents _ (Field.isAbsolute_mem h.encoding)
  have hbit : Word.bit (m.get raw .isAbsolute) 0 = Word.bit raw 63 := by
    rw [get, Bitfield.bit_get]
    rfl
  rw [← hbit, hflag, Address.content]
  cases (m.decode raw issuer).mode <;> decide

theorem mode_of_not_bit (h : Word.bit raw 63 = false) (issuer : CoreId) :
    (m.decode raw issuer).mode = .relative := by
  cases hm : (m.decode raw issuer).mode with
  | relative => rfl
  | absolute =>
    rw [(m.bit_63_iff raw issuer).mpr hm] at h
    cases h

/-- Absolute words stay as they are. -/
theorem toAbsolute_of_bit (h : Word.bit raw 63 = true) (issuer : CoreId) :
    m.toAbsolute raw issuer = .ok raw := by
  have hmode := (m.bit_63_iff raw issuer).mp h
  simp only [toAbsolute, Address.isAbsolute, hmode, BEq.rfl, ↓reduceIte]

variable (m raw issuer) in
/-- The byte that a word means to a core, in the memory that the core has or shares. -/
def target : Address :=
  .absoluteFor (m.decode raw issuer).tier issuer (m.decode raw issuer).offset

/-- Relative words become those of the byte that they mean. -/
theorem toAbsolute_of_relative (h : (m.decode raw issuer).mode = .relative) :
    m.toAbsolute raw issuer = m.encode (m.target raw issuer) := by
  simp only [toAbsolute, Address.isAbsolute, h, reduceCtorEq, beq_iff_eq, ↓reduceIte]
  rfl

/-- What the offset of a relative word holds has room in the absolute window of its tier. -/
theorem absolute_offset_fits (hmode : (m.decode raw issuer).mode = .relative) {off : Field}
    (ho : Field.offset? .absolute (m.decode raw issuer).tier = some off) :
    (m.layout.field off).fits (m.decode raw issuer).offset = true := by
  obtain ⟨fields, hr⟩ := decode_readAs (m := m) raw issuer
  obtain ⟨narrow, hnarrow⟩ := Field.exists_offset hr.encoding
  have hlt := (Bitfield.fits_iff _).mp (offset_fits hr hnarrow)
  rw [hmode] at hnarrow
  have hbits := m.shape.relative_bits_le hnarrow ho
  have hpow := Nat.pow_le_pow_right Nat.two_pos hbits
  exact (Bitfield.fits_iff _).mpr (Nat.lt_of_lt_of_le hlt hpow)

/-- A relative word is resolved to the word of the byte that it means. -/
theorem toAbsolute_of_not_bit (h : Word.bit raw 63 = false) (hcore : m.topology.HasCore issuer) :
    ∃ word, m.toAbsolute raw issuer = .ok word ∧ m.encode (m.target raw issuer) = .ok word := by
  have hmode := mode_of_not_bit (m := m) h issuer
  obtain ⟨off, ho⟩ := Field.exists_absolute_offset (m.decode raw issuer).tier
  obtain ⟨base, hbase⟩ := exists_base_of_owner (hcore.hasOwner _) ho
  obtain ⟨word, hword, _⟩ := hbase _ (absolute_offset_fits hmode ho)
  exact ⟨word, (toAbsolute_of_relative hmode).trans hword, hword⟩

/-- What an encoded absolute address is read as, whoever asks. -/
theorem decode_target {word : UInt64} (h : m.encode (m.target raw issuer) = .ok word)
    (reader : CoreId) : m.decode word reader = m.target raw issuer := by
  have hw := Address.wellFormed_absoluteFor (m.decode raw issuer).tier issuer
    (m.decode raw issuer).offset
  rw [decode_of_encode hw h, Address.withIssuer, Address.isRelative, target,
    Address.mode_absoluteFor]
  rfl

variable (m raw issuer) in
/-- The word that a core is given for a word it issues. -/
structure ResolvedTo (word : UInt64) : Prop where
  absolute : Word.bit raw 63 = true → word = raw
  /-- A relative word becomes that of the byte it means, in the core's own memory. -/
  relative : Word.bit raw 63 = false → ∀ reader, m.decode word reader =
    .absoluteFor (m.decode raw issuer).tier issuer (m.decode raw issuer).offset
  marked : Word.bit word 63 = true
  stable : ∀ other, m.toAbsolute word other = .ok word

theorem exists_resolved (raw : UInt64) (hcore : m.topology.HasCore issuer) :
    ∃ word, m.toAbsolute raw issuer = .ok word ∧ m.ResolvedTo raw issuer word := by
  cases h : Word.bit raw 63 with
  | true =>
    have hstay := toAbsolute_of_bit (m := m) h
    refine ⟨raw, hstay issuer, fun _ => rfl, fun hz => ?_, h, hstay⟩
    cases h.symm.trans hz
  | false =>
    obtain ⟨word, hword, he⟩ := toAbsolute_of_not_bit h hcore
    have hread := decode_target he
    have hmarked : Word.bit word 63 = true := by
      rw [m.bit_63_iff word issuer, hread, target, Address.mode_absoluteFor]
    refine ⟨word, hword, fun hz => ?_, fun _ => hread, hmarked, toAbsolute_of_bit hmarked⟩
    cases h.symm.trans hz

/-- Relative words are resolved alike only if they mean the same byte of the same owner. -/
theorem toAbsolute_eq_iff {raw' : UInt64} {issuer' : CoreId} (hcore : m.topology.HasCore issuer)
    (hcore' : m.topology.HasCore issuer') (h : Word.bit raw 63 = false)
    (h' : Word.bit raw' 63 = false) :
    m.toAbsolute raw issuer = m.toAbsolute raw' issuer' ↔
      m.target raw issuer = m.target raw' issuer' := by
  obtain ⟨word, hword, he⟩ := toAbsolute_of_not_bit h hcore
  obtain ⟨word', hword', he'⟩ := toAbsolute_of_not_bit h' hcore'
  rw [hword, hword']
  constructor
  · intro heq
    cases heq
    exact (decode_target he issuer).symm.trans (decode_target he' issuer)
  · intro heq
    rw [← he, ← he', heq]

/-- A core of the machine gets an absolute word for every word; for relative words it depends on the
byte that is meant and on the coordinates that the tier carries, and on nothing else. -/
theorem toAbsolute_isolates (m : AddressMap) (raw raw' : UInt64) {issuer issuer' : CoreId}
    (hcore : m.topology.HasCore issuer) (hcore' : m.topology.HasCore issuer') :
    (∃ word, m.toAbsolute raw issuer = .ok word ∧ m.ResolvedTo raw issuer word) ∧
      (Word.bit raw 63 = false → Word.bit raw' 63 = false →
        (m.toAbsolute raw issuer = m.toAbsolute raw' issuer' ↔
          (m.decode raw issuer).tier = (m.decode raw' issuer').tier ∧
          (m.decode raw issuer).offset = (m.decode raw' issuer').offset ∧
          ∀ level, (m.decode raw issuer).tier.carries level = true →
            issuer.place level = issuer'.place level)) :=
  ⟨exists_resolved raw hcore, fun h h' =>
    (toAbsolute_eq_iff hcore hcore' h h').trans Address.absoluteFor_eq_iff⟩

/-- The last byte of the relative DRAM window, for the first and for the last core of a machine with
as many PXNs as addresses can name. -/
theorem toAbsolute_isolates_widest :
    ∃ m : AddressMap, m.topology = ⟨0x80000000, 1, 1⟩ ∧
      m.topology.HasCore .first ∧ m.topology.HasCore ⟨0x7FFFFFFF, 0, 0⟩ ∧
      (∃ word, m.toAbsolute 0x7FFFFFFF .first = .ok word ∧
        m.ResolvedTo 0x7FFFFFFF .first word) ∧
      m.toAbsolute 0x7FFFFFFF .first ≠ m.toAbsolute 0x7FFFFFFF ⟨0x7FFFFFFF, 0, 0⟩ := by
  obtain ⟨m, ht⟩ : ∃ m : AddressMap, m.topology = ⟨0x80000000, 1, 1⟩ := ⟨⟨_, _, rfl⟩, rfl⟩
  have hfirst : m.topology.HasCore .first := by
    rw [ht]
    intro level
    cases level <;> decide
  have hlast : m.topology.HasCore ⟨0x7FFFFFFF, 0, 0⟩ := by
    rw [ht]
    intro level
    cases level <;> decide
  obtain ⟨hword, hiff⟩ := toAbsolute_isolates m 0x7FFFFFFF 0x7FFFFFFF hfirst hlast
  refine ⟨m, ht, hfirst, hlast, hword, fun heq => ?_⟩
  obtain ⟨_, _, hplace⟩ := (hiff (by decide) (by decide)).mp heq
  -- every tier carries the PXN
  have hcarries : (m.decode 0x7FFFFFFF .first).tier.carries .pxn = true := by
    cases (m.decode 0x7FFFFFFF .first).tier <;> rfl
  exact absurd (hplace .pxn hcarries) (by decide)

end AddressMap

end TieredMemory
