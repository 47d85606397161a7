import TieredMemory.AddressMap.Logged

/-!
# Regions striped across banks

A region of `banks` equal banks deals its bytes out in stripes: bank 0 has the first stripe, bank 1
the next, and after the last bank it is bank 0's turn again. A stripe of 0 means one bank that has
it all.

    4 banks, stripe 64, step 256, 256 bytes per bank

    offset   0    64   128  192  256  320  384  448  ...  960  1023
             | b0 | b1 | b2 | b3 | b0 | b1 | b2 | b3 | ... | b3 |

    bank 0: first 0,   last 831
    bank 3: first 192, last 1023
-/
set_option autoImplicit false

namespace TieredMemory

/-- The number of banks that take turns: how often the stripe goes into the step. -/
def stripedBanks (stripe step : UInt64) : UInt64 :=
  if striped : stripe = 0 then 1 else Word.div step stripe striped

/-- Whether the step is made of whole stripes, and of at least one. -/
def WholeStep (stripe step : UInt64) : Prop :=
  if striped : stripe = 0 then True else stripe ≤ step ∧ Word.rem step stripe striped = 0

instance (stripe step : UInt64) : Decidable (WholeStep stripe step) := by
  unfold WholeStep
  infer_instance

structure Region where
  bankSize : UInt64
  stripe : UInt64
  step : UInt64
  bankSize_ne : bankSize ≠ 0
  step_whole : WholeStep stripe step
  fits : bankSize.toNat * (stripedBanks stripe step).toNat < UInt64.size
  deriving DecidableEq

namespace Region

/-- A region, if it has a size, its step is made of whole stripes, and its size is a word. -/
def make (bankSize stripe step : UInt64) : Except AddressError Region :=
  if sized : bankSize = 0 then .error .emptyBank
  else if whole : WholeStep stripe step then
    if fits : bankSize.toNat * (stripedBanks stripe step).toNat < UInt64.size then
      .ok ⟨bankSize, stripe, step, sized, whole, fits⟩
    else .error (.regionTooLarge (stripedBanks stripe step) bankSize)
  else .error (.stepNotMultiple step stripe)

variable (r : Region)

def banks : UInt64 := stripedBanks r.stripe r.step

def totalSize : UInt64 := r.bankSize * r.banks

/-- The offsets of the first and the last byte of a bank. The last stripe of the region is the last
bank's; each bank before it ends one stripe earlier. -/
def envelope (bank : UInt64) : Except (Failure AddressError) (UInt64 × UInt64) :=
  if r.banks ≤ bank then .error (.error (.bankOutOfRange bank r.banks))
  else Failure.ofFault do
    let first ← Word.mul bank r.stripe
    let banksAfter ← Word.sub r.banks bank
    let banksAfter ← Word.sub banksAfter 1
    let behind ← Word.mul banksAfter r.stripe
    let stop ← Word.sub r.totalSize behind
    let last ← Word.sub stop 1
    return (first, last)

/-- The addresses of a bank, where `addressAt` says which address an offset of the region has. -/
def place (m : AddressMap) (bank : UInt64) (addressAt : UInt64 → Address) :
    Logged (Failure AddressError) AddressRange := do
  let (first, last) ← Logged.ofExcept (r.envelope bank)
  let start ← (m.encodeLogged (addressAt first)).mapError .error
  let stop ← (m.encodeLogged (addressAt last)).mapError .error
  let range : AddressRange := ⟨start, stop, r.stripe, r.step⟩
  Logged.emit (.bankPlaced (addressAt first).tier bank r.banks first last range)
  return range

/-- The addresses of a bank of the tier that `owner` has or shares. -/
def placeFor (m : AddressMap) (tier : Tier) (owner : CoreId) (bank : UInt64) :
    Logged (Failure AddressError) AddressRange :=
  r.place m bank (.absoluteFor tier owner)

/-- A region of a single bank, as every core has for itself. -/
def unstriped (size : UInt64) : Except AddressError Region := make size 0 0

end Region

end TieredMemory
