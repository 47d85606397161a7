/-!
# 64-bit words

Addresses, sizes and counts are 64-bit words. A sum, difference or product that leaves the word has
no result; the fault names the operation. A quotient or remainder is only there for a divisor that
is known not to be zero. Shifts by the width of the word or more give zero.
-/
set_option autoImplicit false

namespace TieredMemory

/-- An arithmetic step whose exact result is not a 64-bit word. -/
inductive ArithmeticFault where
  | addition
  | subtraction
  | multiplication
  deriving DecidableEq, Repr

def ArithmeticFault.message : ArithmeticFault → String
  | .addition => "attempt to add with overflow"
  | .subtraction => "attempt to subtract with overflow"
  | .multiplication => "attempt to multiply with overflow"

namespace Word

def largest : UInt64 := 0xFFFFFFFFFFFFFFFF

def add (a b : UInt64) : Except ArithmeticFault UInt64 :=
  if a.toNat + b.toNat < UInt64.size then .ok (a + b) else .error .addition

def sub (a b : UInt64) : Except ArithmeticFault UInt64 :=
  if b.toNat ≤ a.toNat then .ok (a - b) else .error .subtraction

def mul (a b : UInt64) : Except ArithmeticFault UInt64 :=
  if a.toNat * b.toNat < UInt64.size then .ok (a * b) else .error .multiplication

def div (a b : UInt64) (_ : b ≠ 0) : UInt64 := a / b

def rem (a b : UInt64) (_ : b ≠ 0) : UInt64 := a % b

/-- The sum, or the largest word in its place. -/
def addSaturating (a b : UInt64) : UInt64 :=
  if a.toNat + b.toNat < UInt64.size then a + b else largest

/-- The product, or the largest word in its place. -/
def mulSaturating (a b : UInt64) : UInt64 :=
  if a.toNat * b.toNat < UInt64.size then a * b else largest

/-- Bits moved up by `n` places; those past bit 63 are lost. -/
def shiftLeft (w : UInt64) (n : Nat) : UInt64 := if n < 64 then w <<< UInt64.ofNat n else 0

/-- Bits moved down by `n` places; those below bit 0 are lost. -/
def shiftRight (w : UInt64) (n : Nat) : UInt64 := if n < 64 then w >>> UInt64.ofNat n else 0

def decimal (w : UInt64) : String := String.ofList (Nat.toDigits 10 w.toNat)

/-- The hexadecimal numeral in lower case, without leading zeros. -/
def hex (w : UInt64) : String := String.ofList (Nat.toDigits 16 w.toNat)

/-- The hexadecimal numeral in lower case, filled up with zeros to at least `width` digits. -/
def hexPadded (width : Nat) (w : UInt64) : String :=
  String.ofList ((Nat.toDigits 16 w.toNat).leftpad width '0')

/-- How raw addresses are written: all sixteen digits. -/
def addressText (w : UInt64) : String := "0x" ++ hexPadded 16 w

/-- How offsets and sizes are written: no more digits than needed. -/
def hexText (w : UInt64) : String := "0x" ++ hex w

theorem largest_toNat : largest.toNat = UInt64.size - 1 := rfl

@[simp] theorem toNat_div (a b : UInt64) (h : b ≠ 0) : (div a b h).toNat = a.toNat / b.toNat :=
  UInt64.toNat_div a b

@[simp] theorem toNat_rem (a b : UInt64) (h : b ≠ 0) : (rem a b h).toNat = a.toNat % b.toNat :=
  UInt64.toNat_mod a b

theorem toBitVec_shiftLeft (w : UInt64) (n : Nat) :
    (shiftLeft w n).toBitVec = w.toBitVec <<< n := by
  apply BitVec.eq_of_toNat_eq
  unfold shiftLeft
  split
  · have small : n % 18446744073709551616 % 64 = n := by omega
    simp [small]
  · have large : 64 ≤ n := by omega
    simp [BitVec.shiftLeft_eq_zero large]

theorem toBitVec_shiftRight (w : UInt64) (n : Nat) :
    (shiftRight w n).toBitVec = w.toBitVec >>> n := by
  apply BitVec.eq_of_toNat_eq
  unfold shiftRight
  split
  · have small : n % 18446744073709551616 % 64 = n := by omega
    simp [small]
  · have large : 64 ≤ n := by omega
    simp [BitVec.ushiftRight_eq_zero large]

end Word

end TieredMemory
