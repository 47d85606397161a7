import TieredMemory.Field

/-!
# What can be wrong with a topology, an address or a bank

Each cause is a constructor; `message` is the only place that knows the wording.
-/
set_option autoImplicit false

namespace TieredMemory

inductive AddressError where
  | emptyLevel (level : Level)
  /-- The coordinates of the three levels need more bits than an address has for them. -/
  | idBudget (topology : Topology) (pxnBits podBits coreBits available : Nat)
  | doesNotFitBelow (width top : Nat)
  | fieldsOverlap (mode : Mode) (tier : Tier) (first : Field) (firstBits : Bitfield)
      (second : Field) (secondBits : Bitfield)
  | emptyBank
  | stepNotMultiple (step size : UInt64)
  | regionTooLarge (banks bankSize : UInt64)
  | unknownTier (name : String)
  | unknownMode (name : String)
  | noTier
  /-- The tier has no relative form, found while a description is checked. -/
  | mustBeAbsolute (tier : Tier)
  /-- The tier has no relative form, found while an encoding is looked up. -/
  | cannotBeRelative (tier : Tier)
  | relativeWithCoordinate (tier : Tier) (level : Level)
  | missingCoordinate (tier : Tier) (level : Level)
  | extraCoordinate (tier : Tier) (level : Level)
  | fieldOverflow (field : Field) (value : UInt64) (bits : Nat)
  | coordinateOutOfRange (level : Level) (value count : UInt64)
  | bankOutOfRange (bank banks : UInt64)
  deriving DecidableEq

namespace AddressError

/-- The families of causes that callers tell apart. -/
inductive Family where
  | configuration
  | addressKind
  | fieldOverflow
  | coordinate
  | bank
  deriving DecidableEq, Repr

def family : AddressError → Family
  | .emptyLevel .. | .idBudget .. | .doesNotFitBelow .. | .fieldsOverlap .. | .emptyBank
  | .stepNotMultiple .. | .regionTooLarge .. => .configuration
  | .unknownTier .. | .unknownMode .. | .noTier | .mustBeAbsolute .. | .cannotBeRelative ..
  | .relativeWithCoordinate .. | .missingCoordinate .. | .extraCoordinate .. => .addressKind
  | .fieldOverflow .. => .fieldOverflow
  | .coordinateOutOfRange .. => .coordinate
  | .bankOutOfRange .. => .bank

/-- What is wrong, without the name of the family. -/
def detail : AddressError → String
  | .emptyLevel level => s!"{level.name} count must be at least 1"
  | .idBudget t pxn pod core available =>
    s!"topology of {t.text} needs {pxn + pod + core} id bits ({pxn}+{pod}+{core}), " ++
      s!"only {available} available"
  | .doesNotFitBelow width top => s!"a {width}-bit field does not fit below bit {top}"
  | .fieldsOverlap mode tier a aBits b bBits =>
    s!"{mode.name} {tier.name} fields {a.name} {aBits.text} and {b.name} {bBits.text} overlap"
  | .emptyBank => "bank size must be non-zero"
  | .stepNotMultiple step size =>
    s!"interleave step {step} is not a multiple of interleave size {size}"
  | .regionTooLarge banks bankSize =>
    s!"{banks} banks of {bankSize} bytes overflow the address space"
  | .unknownTier name => s!"unknown address type '{name}' (expected l1sp, l2sp, dram, or ctrl)"
  | .unknownMode name => s!"unknown address mode '{name}' (expected absolute or relative)"
  | .noTier => "no address type set"
  | .mustBeAbsolute tier => s!"{tier.name} addresses must be absolute"
  | .cannotBeRelative tier => s!"{tier.name} addresses cannot be relative"
  | .relativeWithCoordinate tier level =>
    s!"relative {tier.name} address cannot carry a {level.name} coordinate"
  | .missingCoordinate tier level =>
    s!"absolute {tier.name} address requires a {level.name} coordinate"
  | .extraCoordinate tier level =>
    s!"absolute {tier.name} address cannot carry a {level.name} coordinate"
  | .fieldOverflow field value bits =>
    s!"value {Word.hexText value} does not fit in {bits}-bit field {field.name}"
  | .coordinateOutOfRange level value count =>
    s!"{level.name} {value} out of range (topology has {count})"
  | .bankOutOfRange bank banks => s!"bank {bank} out of range ({banks} banks)"

def message (e : AddressError) : String :=
  match e.family with
  | .configuration => "configuration error: " ++ e.detail
  | .addressKind => "invalid address kind: " ++ e.detail
  | .fieldOverflow | .coordinate | .bank => e.detail

end AddressError

/-- The tier of that name, or an error that quotes the name in lower case. -/
def Tier.parse (s : String) : Except AddressError Tier :=
  match Tier.ofName? s with
  | some tier => .ok tier
  | none => .error (.unknownTier (lowerAscii s))

/-- The mode of that name, or an error that quotes the name in lower case. -/
def Mode.parse (s : String) : Except AddressError Mode :=
  match Mode.ofName? s with
  | some mode => .ok mode
  | none => .error (.unknownMode (lowerAscii s))

/-- Why a computation has no result: an error of its domain, or arithmetic that leaves the word. -/
inductive Failure (ε : Type) where
  | error (cause : ε)
  | fault (fault : ArithmeticFault)
  deriving DecidableEq

def Failure.map {ε ε' : Type} (f : ε → ε') : Failure ε → Failure ε'
  | .error e => .error (f e)
  | .fault a => .fault a

def Failure.ofError {ε α : Type} : Except ε α → Except (Failure ε) α := Except.mapError .error

def Failure.ofFault {ε α : Type} : Except ArithmeticFault α → Except (Failure ε) α :=
  Except.mapError .fault

@[simp] theorem mapError_ok {ε ε' α : Type} (f : ε → ε') (a : α) :
    (Except.ok a).mapError f = .ok a := rfl

@[simp] theorem Failure.ofError_ok {ε α : Type} (a : α) :
    Failure.ofError (.ok a : Except ε α) = .ok a := rfl

@[simp] theorem Failure.ofFault_ok {ε α : Type} (a : α) :
    (Failure.ofFault (.ok a) : Except (Failure ε) α) = .ok a := rfl

end TieredMemory
