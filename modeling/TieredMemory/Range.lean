import TieredMemory.Word

/-!
# The addresses one bank answers to

A bank's decoder holds the envelope from its first to its last byte, and for a striped region the
stripe size and the distance between two of its stripes.
-/
set_option autoImplicit false

namespace TieredMemory

structure AddressRange where
  start : UInt64
  /-- The last byte, inclusive. -/
  last : UInt64
  /-- Bytes per stripe; 0 if the region is not striped. -/
  stripe : UInt64
  /-- Bytes from one stripe of the bank to its next. -/
  step : UInt64
  deriving DecidableEq

namespace AddressRange

variable (r : AddressRange)

def span : Except ArithmeticFault UInt64 := do
  let difference ← Word.sub r.last r.start
  Word.add difference 1

/-- Whether the bank answers to the address: inside the envelope and in one of its stripes. -/
def owns (address : UInt64) : Bool :=
  if address < r.start || r.last < address then false
  else if r.stripe = 0 then true
  else if stepped : r.step = 0 then true
  else Word.rem (address - r.start) r.step stepped < r.stripe

def text : String :=
  Word.addressText r.start ++ "..=" ++ Word.addressText r.last ++
    if r.stripe = 0 then ""
    else " every " ++ Word.decimal r.stripe ++ "B of " ++ Word.decimal r.step ++ "B"

end AddressRange

end TieredMemory
