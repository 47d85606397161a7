import TieredMemory.Text.Blank

/-!
# Numbers on the command line

Decimal, `0x` hexadecimal or `0b` binary, in either case, with underscores anywhere and white space
around. After the base a single plus sign may stand.
-/
set_option autoImplicit false

namespace TieredMemory

/-- Why a text is not a number that fits a word. -/
inductive NumberError where
  | empty
  | invalidDigit
  | tooLarge
  deriving DecidableEq, Repr

def NumberError.message : NumberError → String
  | .empty => "cannot parse integer from empty string"
  | .invalidDigit => "invalid digit found in string"
  | .tooLarge => "number too large to fit in target type"

namespace Number

/-- The value of a digit below the base; letters count from ten, in either case. -/
def digit? (base : Nat) (c : Char) : Option Nat :=
  let value :=
    if '0' ≤ c ∧ c ≤ '9' then some (c.toNat - '0'.toNat)
    else if 'a' ≤ c ∧ c ≤ 'z' then some (c.toNat - 'a'.toNat + 10)
    else if 'A' ≤ c ∧ c ≤ 'Z' then some (c.toNat - 'A'.toNat + 10)
    else none
  value.filter (· < base)

/-- The number of the digits after those with the value `seen`. Whichever comes first decides: a
character that is no digit, or the digit with which the number leaves the word. -/
def readDigits (base : Nat) : (seen : Nat) → List Char → Except NumberError Nat
  | seen, [] => .ok seen
  | seen, c :: rest =>
    match digit? base c with
    | none => .error .invalidDigit
    | some d =>
      if seen * base + d < UInt64.size then readDigits base (seen * base + d) rest
      else .error .tooLarge

/-- A numeral of the base, which a plus sign may precede. -/
def readNumeral (base : Nat) : List Char → Except NumberError UInt64
  | [] => .error .empty
  | ['+'] => .error .invalidDigit
  | '+' :: digits => (readDigits base 0 digits).map UInt64.ofNat
  | digits => (readDigits base 0 digits).map UInt64.ofNat

/-- What is left of a text to read: no white space around, no underscores, all in lower case. -/
def clean (cs : List Char) : List Char := ((Text.trim cs).filter (· != '_')).map Char.toLower

/-- The number of a cleaned text, in the base that its first two characters say. -/
def readCleaned : List Char → Except NumberError UInt64
  | '0' :: 'x' :: digits => readNumeral 16 digits
  | '0' :: 'b' :: digits => readNumeral 2 digits
  | digits => readNumeral 10 digits

def parse (s : String) : Except NumberError UInt64 := readCleaned (clean s.toList)

def parseDecimal (s : String) : Except NumberError UInt64 := readNumeral 10 s.toList

def complaint (s : String) (e : NumberError) : String := s!"invalid number '{s}': {e.message}"

end Number

end TieredMemory
