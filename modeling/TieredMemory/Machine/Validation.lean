import TieredMemory.Machine

/-!
# Checking a machine

A finding is an error, which makes the machine unusable, or a warning. Sizes are checked against
the windows that the planned layout gives each tier; a machine without errors so far is then tried
on the last bank of its last core.
-/
set_option autoImplicit false

namespace TieredMemory

inductive Severity where
  | error
  | warning
  deriving DecidableEq, Repr

def Severity.name : Severity → String
  | .error => "error"
  | .warning => "warning"

inductive Finding where
  | noThreads
  | unplannable (cause : AddressError)
  | emptyMemory (tier : Tier)
  | exceedsCoreWindow (tier : Tier) (size window : UInt64)
  | noBanks (tier : Tier)
  | unevenBanks (tier : Tier) (size banks : UInt64)
  | unevenStripes (tier : Tier) (bankSize interleave : UInt64)
  | exceedsAbsoluteWindow (tier : Tier) (size window : UInt64)
  | exceedsRelativeWindow (tier : Tier) (size window : UInt64)
  | unplaceable (cause : AddressError)
  deriving DecidableEq

namespace Finding

/-- Memory past the relative window is still reached by absolute address; all else is an error. -/
def severity : Finding → Severity
  | .exceedsRelativeWindow .. => .warning
  | _ => .error

def isError (f : Finding) : Bool := f.severity == .error

def message : Finding → String
  | .noThreads => "core-threads must be at least 1"
  | .unplannable cause | .unplaceable cause => cause.message
  | .emptyMemory tier => s!"{tier.key} size must be non-zero"
  | .exceedsCoreWindow tier size window =>
    s!"{tier.key} size {Word.hexText size} exceeds the {Word.hexText window}-byte per-core window"
  | .noBanks tier => s!"{tier.key} has 0 banks"
  | .unevenBanks tier size banks =>
    s!"{tier.key} size {Word.hexText size} does not divide into {banks} banks"
  | .unevenStripes tier bankSize interleave =>
    s!"{tier.key} bank size {Word.hexText bankSize} is not a multiple of interleave {interleave}"
  | .exceedsAbsoluteWindow tier size window =>
    s!"{tier.key} size {Word.hexText size} exceeds the {Word.hexText window}-byte absolute window"
  | .exceedsRelativeWindow tier size window =>
    s!"{tier.key} size {Word.hexText size} exceeds the {Word.hexText window}-byte relative " ++
      "window; the excess is only reachable by absolute address"

end Finding

namespace Machine

/-- The bytes that addresses of a tier and mode can name; 0 if there are none. -/
def window (l : Layout) (tier : Tier) (mode : Mode) : UInt64 :=
  match l.windowSize tier mode with
  | .ok size => size
  | .error _ => 0

/-- A memory that every core has for itself against the window of its tier. -/
def checkCoreMemory (l : Layout) (tier : Tier) (size : UInt64) : List Finding :=
  let limit := window l .l1sp .absolute
  if size = 0 then [.emptyMemory tier]
  else if limit < size then [.exceedsCoreWindow tier size limit]
  else []

/-- A banked memory: even banks, whole stripes, and the windows of its tier. -/
def checkBanked (l : Layout) (tier : Tier) (b : BankedMemory) : List Finding :=
  if b.size = 0 then [.emptyMemory tier]
  else if banked : b.banks = 0 then [.noBanks tier]
  else
    let absolute := window l tier .absolute
    let relative := window l tier .relative
    (if Word.rem b.size b.banks banked ≠ 0 then [.unevenBanks tier b.size b.banks] else []) ++
    (if striped : b.interleave = 0 then []
      else if Word.rem b.bankSize b.interleave striped ≠ 0 then
        [.unevenStripes tier b.bankSize b.interleave]
      else []) ++
    (if absolute < b.size then [.exceedsAbsoluteWindow tier b.size absolute] else []) ++
    (if relative < b.size then [.exceedsRelativeWindow tier b.size relative] else [])

variable (machine : Machine)

/-- What can be said about the sizes once there is a layout. -/
def checkSizes (l : Layout) : List Finding :=
  checkCoreMemory l .l1sp machine.l1spSize ++ checkCoreMemory l .ctrl machine.ctrlSize ++
    checkBanked l .l2sp machine.l2sp ++ checkBanked l .dram machine.dram

def checkThreads : List Finding := if machine.coreThreads = 0 then [.noThreads] else []

def lastCore : Except ArithmeticFault CoreId := do
  let pxn ← Word.sub machine.pxns 1
  let pod ← Word.sub machine.pods 1
  let core ← Word.sub machine.cores 1
  return ⟨pxn, pod, core⟩

def placeLast (m : AddressMap) (tier : Tier) (owner : CoreId) :
    Logged (Failure AddressError) Unit := do
  let r ← Logged.ofExcept (Failure.ofError (machine.region tier))
  let index ← Logged.ofExcept (Failure.ofFault (Word.sub r.banks 1))
  let _ ← r.placeFor m tier owner index
  return ()

/-- Places the last bank of every tier for the last core. -/
def checkPlacement (m : AddressMap) : Logged (Failure AddressError) Unit := do
  let owner ← Logged.ofExcept (Failure.ofFault machine.lastCore)
  machine.placeLast m .l1sp owner
  machine.placeLast m .ctrl owner
  machine.placeLast m .l2sp owner
  machine.placeLast m .dram owner

/-- All findings, none for a good machine; a fault is arithmetic that leaves the word. -/
def validate : Logged ArithmeticFault (List Finding) :=
  let planned := AddressMap.planLogged machine.topology
  match planned.outcome with
  | .error cause => ⟨planned.events, .ok (machine.checkThreads ++ [.unplannable cause])⟩
  | .ok m =>
    let found := machine.checkThreads ++ machine.checkSizes m.layout
    if found.any Finding.isError then ⟨planned.events, .ok found⟩
    else
      let placed := machine.checkPlacement m
      let events := planned.events ++ placed.events
      match placed.outcome with
      | .ok () => ⟨events, .ok found⟩
      | .error (.error cause) => ⟨events, .ok (found ++ [.unplaceable cause])⟩
      | .error (.fault fault) => ⟨events, .error fault⟩

end Machine

end TieredMemory
