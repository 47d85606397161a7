import TieredMemory.Proofs.Address.Histories
import TieredMemory.Proofs.AddressMap.RoundTrip

/-!
# Where addresses come from

Addresses are plain data, but none without a meaning is ever made: factories, accepted descriptions,
read words and noted issuers make the well-formed addresses, all of them and no others. A map takes a
description for the address that the factory of its mode and tier makes.
-/
set_option autoImplicit false

namespace TieredMemory

namespace Address

theorem WellFormed.withIssuer {a : Address} (hw : a.WellFormed) (issuer : CoreId) :
    (a.withIssuer issuer).WellFormed := by
  unfold Address.withIssuer
  split
  · next hrelative => exact ⟨hw.coordinates, fun _ => of_decide_eq_true hrelative⟩
  · exact hw

/-- The addresses that the operations return. -/
inductive Obtainable : Address → Prop
  | absoluteL1sp (pxn pod core offset : UInt64) : Obtainable (.absoluteL1sp pxn pod core offset)
  | absoluteCtrl (pxn pod core offset : UInt64) : Obtainable (.absoluteCtrl pxn pod core offset)
  | absoluteL2sp (pxn pod offset : UInt64) : Obtainable (.absoluteL2sp pxn pod offset)
  | absoluteDram (pxn offset : UInt64) : Obtainable (.absoluteDram pxn offset)
  | relativeL1sp (offset : UInt64) : Obtainable (.relativeL1sp offset)
  | relativeL2sp (offset : UInt64) : Obtainable (.relativeL2sp offset)
  | relativeDram (offset : UInt64) : Obtainable (.relativeDram offset)
  | absoluteFor (tier : Tier) (owner : CoreId) (offset : UInt64) :
    Obtainable (.absoluteFor tier owner offset)
  | built {steps : List AddressBuilder.Step} {a : Address}
    (h : (AddressBuilder.ofSteps steps).build = .ok a) : Obtainable a
  | decoded (m : AddressMap) (raw : UInt64) (issuer : CoreId) : Obtainable (m.decode raw issuer)
  | issued {a : Address} (h : a.Obtainable) (issuer : CoreId) : Obtainable (a.withIssuer issuer)

variable {a : Address}

theorem Obtainable.wellFormed (h : a.Obtainable) : a.WellFormed := by
  induction h with
  | absoluteL1sp pxn pod core offset => exact wellFormed_absoluteFor .l1sp ⟨pxn, pod, core⟩ offset
  | absoluteCtrl pxn pod core offset => exact wellFormed_absoluteFor .ctrl ⟨pxn, pod, core⟩ offset
  | absoluteL2sp pxn pod offset => exact wellFormed_absoluteFor .l2sp ⟨pxn, pod, 0⟩ offset
  | absoluteDram pxn offset => exact wellFormed_absoluteFor .dram ⟨pxn, 0, 0⟩ offset
  | relativeL1sp offset => exact wellFormed_relative rfl offset
  | relativeL2sp offset => exact wellFormed_relative rfl offset
  | relativeDram offset => exact wellFormed_relative rfl offset
  | absoluteFor tier owner offset => exact wellFormed_absoluteFor tier owner offset
  | built h => exact AddressBuilder.wellFormed_of_build h
  | decoded m raw issuer =>
    obtain ⟨_, hread⟩ := m.decode_readAs raw issuer
    exact hread.wellFormed
  | issued _ issuer ih => exact ih.withIssuer issuer

theorem WellFormed.obtainable (hw : a.WellFormed) : a.Obtainable := by
  cases hm : a.mode with
  | absolute =>
    obtain ⟨owner, howner⟩ := exists_absoluteFor hw hm
    rw [howner]
    exact .absoluteFor _ _ _
  | relative =>
    have hallowed := hw.allowsRelative hm
    rw [eq_of_relative hw hm]
    cases hissuer : a.issuer with
    | none =>
      cases htier : a.tier with
      | l1sp => exact .relativeL1sp _
      | l2sp => exact .relativeL2sp _
      | dram => exact .relativeDram _
      | ctrl => rw [htier] at hallowed; cases hallowed
    | some issuer =>
      cases htier : a.tier with
      | l1sp => exact .issued (.relativeL1sp _) issuer
      | l2sp => exact .issued (.relativeL2sp _) issuer
      | dram => exact .issued (.relativeDram _) issuer
      | ctrl => rw [htier] at hallowed; cases hallowed

end Address

namespace AddressBuilder

theorem encodeBuilder_of_build {b : AddressBuilder} {a : Address} (m : AddressMap)
    (h : b.build = .ok a) : m.encodeBuilder b = m.encode a := by
  rw [AddressMap.encodeBuilder, h]
  rfl

/-- The address made of a description is that of the factory of its mode and tier, and has the word
of the description, which may as well be put together from its parts. -/
structure Makes (m : AddressMap) (b : AddressBuilder) (a : Address) : Prop where
  factory : b.factory? = some a
  encoded : m.encodeBuilder b = m.encode a
  parts : ∀ tier, b.tier = some tier →
    m.encodeBuilder (.ofParts tier b.mode b.offset b.pxn b.pod b.core) = m.encode a

theorem makes_of_build {b : AddressBuilder} {a : Address} (m : AddressMap) (h : b.build = .ok a) :
    b.Makes m a where
  factory := factory?_of_build h
  encoded := encodeBuilder_of_build m h
  parts tier ht := by rw [ofParts_self ht, encodeBuilder_of_build m h]

/-- Descriptions are accepted exactly, whatever the chain of setters. -/
structure BuildsExactly (m : AddressMap) (steps : List Step) : Prop where
  last : ofSteps steps = ofLast steps
  order : ∀ others : List Step,
    (∀ part, others.filter (·.part = part) = steps.filter (·.part = part)) →
      ofSteps others = ofSteps steps
  accepts : (∃ a, (ofSteps steps).build = .ok a) ↔ GoTogether steps
  makes : ∀ a, (ofSteps steps).build = .ok a → (ofSteps steps).Makes m a

/-- A description consists of the values set last, is accepted exactly if these go together, and then
means what the factory makes; what operations return are exactly the well-formed addresses. -/
theorem builds_exactly (m : AddressMap) (steps : List Step) :
    BuildsExactly m steps ∧ ∀ a : Address, a.Obtainable ↔ a.WellFormed :=
  ⟨⟨ofSteps_eq steps, fun _ => ofSteps_congr, exists_build_iff steps, fun _ => makes_of_build m⟩,
    fun _ => ⟨Address.Obtainable.wellFormed, Address.WellFormed.obtainable⟩⟩

end AddressBuilder

end TieredMemory
