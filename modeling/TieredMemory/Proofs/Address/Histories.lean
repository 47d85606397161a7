import Mathlib.Data.List.Induction
import TieredMemory.Address.Builder
import TieredMemory.Proofs.Address
import TieredMemory.Proofs.Layout

/-!
# Descriptions by their setters

However long the chain of setters, a description consists of the last value given for each of its
parts. The order of setters of different parts is therefore of no account, and what is accepted can
be read off the chain: overwritten tiers and modes do not count, but no setter takes a coordinate
back.
-/
set_option autoImplicit false

namespace TieredMemory

namespace AddressBuilder

/-- A part of a description that setters overwrite. -/
inductive Part where
  | tier
  | mode
  | offset
  | coordinate (level : Level)
  deriving DecidableEq

namespace Step

def part : Step → Part
  | .tier _ => .tier
  | .mode _ => .mode
  | .offset _ => .offset
  | .coordinate level _ => .coordinate level

def tier? : Step → Option Tier
  | .tier t => some t
  | _ => none

def mode? : Step → Option Mode
  | .mode m => some m
  | _ => none

def offset? : Step → Option UInt64
  | .offset o => some o
  | _ => none

def coordinate? (level : Level) : Step → Option UInt64
  | .coordinate set value => if set = level then some value else none
  | _ => none

theorem coordinate?_eq_some_iff {s : Step} {level : Level} {value : UInt64} :
    s.coordinate? level = some value ↔ s = .coordinate level value := by
  cases s <;> simp [coordinate?]

end Step

section Last

variable {α : Type} {given : Step → Option α} {steps others : List Step}

/-- The last of the values given. -/
def last? (given : Step → Option α) (steps : List Step) : Option α :=
  (steps.filterMap given).getLast?

theorem last?_concat (given : Step → Option α) (steps : List Step) (s : Step) :
    last? given (steps ++ [s]) = (given s).or (last? given steps) := by
  rw [last?, List.filterMap_append, List.getLast?_append]
  cases hs : given s <;> simp [last?, hs]

theorem isSome_last?_iff :
    (last? given steps).isSome = true ↔ ∃ value, ∃ s ∈ steps, given s = some value := by
  simp only [last?, List.getLast?_isSome, ← List.mem_filterMap]
  exact ⟨List.exists_mem_of_ne_nil _, fun ⟨_, hmem⟩ => List.ne_nil_of_mem hmem⟩

/-- The setters of other parts do not count. -/
theorem last?_filter {part : Part} (h : ∀ s value, given s = some value → s.part = part)
    (steps : List Step) : last? given (steps.filter (·.part = part)) = last? given steps := by
  rw [last?, List.filterMap_filter, last?]
  congr 2
  funext s
  split
  · rfl
  · next hpart =>
    cases hs : given s with
    | none => rfl
    | some value => exact absurd (decide_eq_true (h s value hs)) hpart

theorem last?_congr {part : Part} (h : ∀ s value, given s = some value → s.part = part)
    (heq : others.filter (·.part = part) = steps.filter (·.part = part)) :
    last? given others = last? given steps := by
  rw [← last?_filter h, heq, last?_filter h]

end Last

variable {b : AddressBuilder} {a : Address} {steps others : List Step}

/-- The description of the last values; what is never given is as in the empty description. -/
def ofLast (steps : List Step) : AddressBuilder where
  tier := last? Step.tier? steps
  mode := (last? Step.mode? steps).getD .relative
  offset := (last? Step.offset? steps).getD 0
  pxn := last? (Step.coordinate? .pxn) steps
  pod := last? (Step.coordinate? .pod) steps
  core := last? (Step.coordinate? .core) steps

/-- One more setter overwrites its part and leaves the others. -/
theorem ofLast_concat (steps : List Step) (s : Step) :
    ofLast (steps ++ [s]) = (ofLast steps).apply s := by
  simp only [ofLast, last?_concat]
  cases s with
  | coordinate level value => cases level <;> rfl
  | _ => rfl

theorem ofSteps_eq (steps : List Step) : ofSteps steps = ofLast steps := by
  induction steps using List.reverseRecOn with
  | nil => rfl
  | append_singleton steps s ih =>
    rw [ofLast_concat, ← ih, ofSteps, List.foldl_append]
    rfl

theorem coordinate_ofLast (steps : List Step) (level : Level) :
    (ofLast steps).coordinate level = last? (Step.coordinate? level) steps := by
  cases level <;> rfl

/-- Chains with the same setters of each part, in the same order, describe the same. -/
theorem ofSteps_congr
    (h : ∀ part, others.filter (·.part = part) = steps.filter (·.part = part)) :
    ofSteps others = ofSteps steps := by
  have htier : last? Step.tier? others = last? Step.tier? steps :=
    last?_congr (fun s _ hs => by cases s <;> first | rfl | cases hs) (h .tier)
  have hmode : last? Step.mode? others = last? Step.mode? steps :=
    last?_congr (fun s _ hs => by cases s <;> first | rfl | cases hs) (h .mode)
  have hoffset : last? Step.offset? others = last? Step.offset? steps :=
    last?_congr (fun s _ hs => by cases s <;> first | rfl | cases hs) (h .offset)
  have hcoordinate (level : Level) :
      last? (Step.coordinate? level) others = last? (Step.coordinate? level) steps :=
    last?_congr (fun s _ hs => by rw [Step.coordinate?_eq_some_iff.mp hs]; rfl)
      (h (.coordinate level))
  simp only [ofSteps_eq, ofLast, htier, hmode, hoffset, hcoordinate]

/-! ## What is accepted -/

theorem firstCoordinate?_eq_none_iff (levels : List Level) :
    b.firstCoordinate? levels = none ↔ ∀ level ∈ levels, b.coordinate level = none := by
  induction levels with
  | nil => simp [firstCoordinate?]
  | cons level rest ih =>
    rw [firstCoordinate?, List.forall_mem_cons, ← ih]
    cases b.coordinate level <;> simp

theorem requireCoordinate_eq_ok_iff {tier : Tier} {level : Level} {value : Option UInt64} :
    requireCoordinate tier level value = .ok () ↔ value.isSome = tier.carries level := by
  unfold requireCoordinate
  cases value <;> cases tier.carries level <;> simp

/-- The address with the parts of the description, for a tier. -/
def asAddress (b : AddressBuilder) (tier : Tier) : Address :=
  ⟨tier, b.mode, b.offset, b.pxn, b.pod, b.core, none⟩

theorem build_relative {tier : Tier} (ht : b.tier = some tier) (hm : b.mode = .relative) :
    b.build = .ok a ↔ (b.asAddress tier).HasCoordinates ∧ b.asAddress tier = a := by
  have hcoordinates : (b.asAddress tier).HasCoordinates ↔
      tier.allowsRelative = true ∧ ∀ level, b.coordinate level = none := by
    rw [Address.HasCoordinates, asAddress, hm]
    rfl
  have hfirst : b.firstCoordinate? Level.all = none ↔ ∀ level, b.coordinate level = none := by
    rw [firstCoordinate?_eq_none_iff]
    exact ⟨fun h level => h level (by cases level <;> decide), fun h level _ => h level⟩
  rw [hcoordinates, ← hfirst, build, ht, hm]
  dsimp only
  split
  · next hallowed =>
    split
    · next level hlevel => simp [hlevel]
    · next hnone =>
      have hpxn : b.pxn = none := hfirst.mp hnone .pxn
      have hpod : b.pod = none := hfirst.mp hnone .pod
      have hcore : b.core = none := hfirst.mp hnone .core
      simp only [asAddress, hm, hpxn, hpod, hcore, hallowed, hnone, Except.ok.injEq, true_and]
  · next hctrl => simp [hctrl]

theorem build_absolute {tier : Tier} (ht : b.tier = some tier) (hm : b.mode = .absolute) :
    b.build = .ok a ↔ (b.asAddress tier).HasCoordinates ∧ b.asAddress tier = a := by
  have hcoordinates : (b.asAddress tier).HasCoordinates ↔
      ∀ level, requireCoordinate tier level (b.coordinate level) = .ok () := by
    rw [Address.HasCoordinates, asAddress, hm]
    exact forall_congr' fun level => by rw [requireCoordinate_eq_ok_iff]; cases level <;> rfl
  rw [hcoordinates, build, ht, hm]
  constructor
  · intro h
    obtain ⟨_, hpxn, h⟩ := exists_of_bind_eq_ok h
    obtain ⟨_, hpod, h⟩ := exists_of_bind_eq_ok h
    obtain ⟨_, hcore, h⟩ := exists_of_bind_eq_ok h
    refine ⟨fun level => by cases level <;> assumption, ?_⟩
    rw [asAddress, hm]
    exact Except.ok.inj h
  · rintro ⟨hrequired, rfl⟩
    have hpxn := hrequired .pxn
    have hpod := hrequired .pod
    have hcore := hrequired .core
    simp only [coordinate] at hpxn hpod hcore
    dsimp only
    rw [hpxn, hpod, hcore, asAddress, hm]
    rfl

/-- The check accepts tier, mode and coordinates that go together, and changes nothing. -/
theorem build_eq_ok_iff : b.build = .ok a ↔
    ∃ tier, b.tier = some tier ∧ (b.asAddress tier).HasCoordinates ∧ b.asAddress tier = a := by
  cases ht : b.tier with
  | none => simp [build, ht]
  | some tier =>
    have hbuild : b.build = .ok a ↔ (b.asAddress tier).HasCoordinates ∧ b.asAddress tier = a := by
      cases hm : b.mode with
      | relative => exact build_relative ht hm
      | absolute => exact build_absolute ht hm
    simp [hbuild]

theorem wellFormed_of_build (h : b.build = .ok a) : a.WellFormed := by
  obtain ⟨tier, _, hcoordinates, rfl⟩ := build_eq_ok_iff.mp h
  exact ⟨hcoordinates, fun hissuer => by cases hissuer⟩

/-- The coordinates that the chain ever sets go with mode and tier: a relative address has none and
is not one of control registers, an absolute address has those that its tier needs. -/
def Suits (steps : List Step) : Mode → Tier → Prop
  | .relative, tier => tier ≠ .ctrl ∧ ∀ level value, .coordinate level value ∉ steps
  | .absolute, tier =>
    ∀ level, (∃ value, .coordinate level value ∈ steps) ↔ tier.carries level = true

/-- The chain sets a tier, and its coordinates go with the last mode and tier. -/
def GoTogether (steps : List Step) : Prop :=
  ∃ tier, last? Step.tier? steps = some tier ∧
    Suits steps ((last? Step.mode? steps).getD .relative) tier

/-- A coordinate, once set, stays set. -/
theorem isSome_coordinate_iff (steps : List Step) (level : Level) :
    ((ofSteps steps).coordinate level).isSome = true ↔
      ∃ value, .coordinate level value ∈ steps := by
  simp only [ofSteps_eq, coordinate_ofLast, isSome_last?_iff, Step.coordinate?_eq_some_iff,
    exists_eq_right]

theorem hasCoordinates_iff (steps : List Step) (tier : Tier) :
    ((ofSteps steps).asAddress tier).HasCoordinates ↔
      Suits steps (ofSteps steps).mode tier := by
  have hset := isSome_coordinate_iff steps
  rw [Address.HasCoordinates, asAddress]
  cases (ofSteps steps).mode with
  | relative =>
    have hnone (level : Level) : (ofSteps steps).coordinate level = none ↔
        ∀ value, .coordinate level value ∉ steps := by
      rw [← Option.not_isSome_iff_eq_none, hset, not_exists]
    have hctrl : tier.allowsRelative = true ↔ tier ≠ .ctrl := by cases tier <;> decide
    exact and_congr hctrl (forall_congr' fun level => by rw [← hnone]; cases level <;> rfl)
  | absolute =>
    exact forall_congr' fun level => by rw [← hset, Bool.eq_iff_iff]; cases level <;> rfl

theorem exists_build_iff (steps : List Step) :
    (∃ a, (ofSteps steps).build = .ok a) ↔ GoTogether steps := by
  simp only [build_eq_ok_iff, hasCoordinates_iff]
  simp only [ofSteps_eq, ofLast, GoTogether]
  exact ⟨fun ⟨_, tier, ht, hsuits, _⟩ => ⟨tier, ht, hsuits⟩,
    fun ⟨tier, ht, hsuits⟩ => ⟨_, tier, ht, hsuits, rfl⟩⟩

/-! ## What is made -/

/-- What the factory with the name of mode and tier makes of the parts that it takes. -/
def factory? (b : AddressBuilder) : Option Address :=
  match b.mode, b.tier, b.pxn, b.pod, b.core with
  | .absolute, some .l1sp, some pxn, some pod, some core =>
    some (.absoluteL1sp pxn pod core b.offset)
  | .absolute, some .ctrl, some pxn, some pod, some core =>
    some (.absoluteCtrl pxn pod core b.offset)
  | .absolute, some .l2sp, some pxn, some pod, _ => some (.absoluteL2sp pxn pod b.offset)
  | .absolute, some .dram, some pxn, _, _ => some (.absoluteDram pxn b.offset)
  | .relative, some .l1sp, _, _, _ => some (.relativeL1sp b.offset)
  | .relative, some .l2sp, _, _, _ => some (.relativeL2sp b.offset)
  | .relative, some .dram, _, _, _ => some (.relativeDram b.offset)
  | _, _, _, _, _ => none

theorem factory?_of_build (h : b.build = .ok a) : b.factory? = some a := by
  have hw := wellFormed_of_build h
  obtain ⟨tier, ht, _, rfl⟩ := build_eq_ok_iff.mp h
  cases hm : b.mode with
  | relative =>
    have hallowed : tier.allowsRelative = true := hw.allowsRelative hm
    rw [Address.eq_of_relative hw hm, factory?, hm, ht]
    cases tier with
    | ctrl => cases hallowed
    | _ => rfl
  | absolute =>
    obtain ⟨owner, howner⟩ := Address.exists_absoluteFor hw hm
    have hpxn : b.pxn = _ := congrArg Address.pxn howner
    have hpod : b.pod = _ := congrArg Address.pod howner
    have hcore : b.core = _ := congrArg Address.core howner
    rw [howner, factory?, hm, ht, hpxn, hpod, hcore]
    cases tier <;> rfl

/-- A description put together from its own parts. -/
theorem ofParts_self {tier : Tier} (ht : b.tier = some tier) :
    ofParts tier b.mode b.offset b.pxn b.pod b.core = b := by
  obtain ⟨_, mode, offset, pxn, pod, core⟩ := b
  cases ht
  cases pxn <;> cases pod <;> cases core <;> rfl

end AddressBuilder

end TieredMemory
