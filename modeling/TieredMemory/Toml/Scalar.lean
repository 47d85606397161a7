import TieredMemory.Toml.Value

/-!
# TOML numbers, dates and times

Integers are signed 64-bit numbers. A reader takes one phrase off the front of the text and gives
what follows it; a phrase that starts well and goes wrong is refused like one that starts badly, as
nothing that may follow a value could make it good.
-/
set_option autoImplicit false

namespace TieredMemory.Toml

def isHexDigit (c : Char) : Bool := c.isDigit || ('a' ≤ c && c ≤ 'f') || ('A' ≤ c && c ≤ 'F')

def isOctalDigit (c : Char) : Bool := '0' ≤ c && c ≤ '7'

def isBinaryDigit (c : Char) : Bool := c == '0' || c == '1'

def digitValue (c : Char) : Nat :=
  if c.isDigit then c.toNat - '0'.toNat
  else if 'a' ≤ c ∧ c ≤ 'f' then c.toNat - 'a'.toNat + 10
  else c.toNat - 'A'.toNat + 10

def digitsValue (base : Nat) (digits : List Char) : Nat :=
  digits.foldl (fun n c => n * base + digitValue c) 0

/-- Digits after a first one; an underscore stands between two digits. The underscores are left
out of the result. -/
def readMoreDigits (isDigit : Char → Bool) : List Char → Option (List Char × List Char)
  | [] => some ([], [])
  | '_' :: c :: rest =>
    if isDigit c then (readMoreDigits isDigit rest).map fun (ds, after) => (c :: ds, after)
    else none
  | c :: rest =>
    if isDigit c then (readMoreDigits isDigit rest).map fun (ds, after) => (c :: ds, after)
    else if c = '_' then none
    else some ([], c :: rest)

def readDigits (isDigit : Char → Bool) : List Char → Option (List Char × List Char)
  | c :: rest =>
    if isDigit c then (readMoreDigits isDigit rest).map fun (ds, after) => (c :: ds, after)
    else none
  | [] => none

def readSign : List Char → Bool × List Char
  | '+' :: rest => (false, rest)
  | '-' :: rest => (true, rest)
  | cs => (false, cs)

/-- A sign, then `0` or a decimal numeral that does not start with `0`. -/
def readDecimal (cs : List Char) : Option (Bool × List Char × List Char) :=
  match readSign cs with
  | (negative, '0' :: rest) => some (negative, ['0'], rest)
  | (negative, rest) =>
    (readDigits Char.isDigit rest).map fun (digits, after) => (negative, digits, after)

/-- A signed 64-bit number of the given sign and size. -/
def signed64? (negative : Bool) (size : Nat) : Option Int :=
  if negative then if size ≤ integerBound then some (-(size : Int)) else none
  else if size < integerBound then some size else none

/-- An unsigned numeral of a base after its two-character mark. -/
def readBased (base : Nat) (isDigit : Char → Bool) (cs : List Char) :
    Option (Int × List Char) := do
  let (digits, after) ← readDigits isDigit cs
  let value ← signed64? false (digitsValue base digits)
  return (value, after)

def readInteger : List Char → Option (Int × List Char)
  | '0' :: 'x' :: rest => readBased 16 isHexDigit rest
  | '0' :: 'o' :: rest => readBased 8 isOctalDigit rest
  | '0' :: 'b' :: rest => readBased 2 isBinaryDigit rest
  | cs => do
    let (negative, digits, after) ← readDecimal cs
    let value ← signed64? negative (digitsValue 10 digits)
    return (value, after)

def readFraction : List Char → Option (List Char × List Char)
  | '.' :: rest => readDigits Char.isDigit rest
  | cs => some ([], cs)

def readExponent : List Char → Option (Option Int × List Char)
  | [] => some (none, [])
  | c :: rest =>
    if c = 'e' ∨ c = 'E' then do
      let (negative, rest) := readSign rest
      let (digits, after) ← readDigits Char.isDigit rest
      let size : Int := digitsValue 10 digits
      return (some (if negative then -size else size), after)
    else some (none, c :: rest)

/-- Whether `digits · 10 ^ exponent` is nearer to infinity than to the largest finite double, that
is, at least `2 ^ 1024 - 2 ^ 970`. That bound is whole, so the digits behind the point do not
matter, and a number with many more or many fewer digits before it is decided by their count. -/
def exceedsDoubles (digits : List Char) (exponent : Int) : Bool :=
  let bound : Nat := (1 <<< 1024) - (1 <<< 970)
  let digits := digits.dropWhile (· = '0')
  let places : Int := digits.length + exponent
  if digits.isEmpty then false
  else if 310 < places then true
  else if places < 300 then false
  else bound ≤ digitsValue 10 ((digits.take places.toNat).rightpad places.toNat '0')

/-- A number with a fraction or an exponent. One that rounds to plus infinity is refused. -/
def readDecimalFloat (cs : List Char) : Option (List Char) := do
  let (negative, whole, rest) ← readDecimal cs
  let (fraction, afterFraction) ← readFraction rest
  let (exponent, after) ← readExponent afterFraction
  if fraction.isEmpty && exponent.isNone then none
  else
    let scale := exponent.getD 0 - fraction.length
    if !negative && exceedsDoubles (whole ++ fraction) scale then none else some after

/-- `inf` or `nan`, with or without a sign. -/
def readSpecialFloat (cs : List Char) : Option (List Char) :=
  match (readSign cs).2 with
  | 'i' :: 'n' :: 'f' :: rest => some rest
  | 'n' :: 'a' :: 'n' :: rest => some rest
  | _ => none

def readFloat (cs : List Char) : Option (List Char) :=
  (readDecimalFloat cs).or (readSpecialFloat cs)

def readField (width low high : Nat) (cs : List Char) : Option (Nat × List Char) :=
  let digits := cs.take width
  let value := digitsValue 10 digits
  if digits.length = width ∧ digits.all Char.isDigit ∧ low ≤ value ∧ value ≤ high then
    some (value, cs.drop width)
  else none

def expect (c : Char) : List Char → Option (List Char)
  | d :: rest => if d = c then some rest else none
  | [] => none

def daysInMonth (year month : Nat) : Nat :=
  if month = 2 then if year % 4 = 0 ∧ (year % 100 ≠ 0 ∨ year % 400 = 0) then 29 else 28
  else if month = 4 ∨ month = 6 ∨ month = 9 ∨ month = 11 then 30
  else 31

def readDate (cs : List Char) : Option (List Char) := do
  let (year, rest) ← readField 4 0 9999 cs
  let rest ← expect '-' rest
  let (month, rest) ← readField 2 1 12 rest
  let rest ← expect '-' rest
  let (_, rest) ← readField 2 1 (daysInMonth year month) rest
  return rest

def readSecondFraction : List Char → List Char
  | '.' :: c :: rest => if c.isDigit then rest.dropWhile Char.isDigit else '.' :: c :: rest
  | cs => cs

/-- A time of day; second 60 is a leap second. -/
def readTime (cs : List Char) : Option (List Char) := do
  let (_, rest) ← readField 2 0 23 cs
  let rest ← expect ':' rest
  let (_, rest) ← readField 2 0 59 rest
  let rest ← expect ':' rest
  let (_, rest) ← readField 2 0 60 rest
  return readSecondFraction rest

/-- `Z` or a signed distance from it. -/
def readOffset : List Char → Option (List Char)
  | 'Z' :: rest | 'z' :: rest => some rest
  | '+' :: rest | '-' :: rest => do
    let (_, rest) ← readField 2 0 23 rest
    let rest ← expect ':' rest
    let (_, rest) ← readField 2 0 59 rest
    return rest
  | _ => none

def readTimeOfDate (cs : List Char) : Option (List Char) :=
  match cs with
  | 'T' :: rest | 't' :: rest | ' ' :: rest =>
    (readTime rest).map fun after => (readOffset after).getD after
  | _ => none

def readMoment (cs : List Char) : Option (List Char) :=
  match readDate cs with
  | some rest => some ((readTimeOfDate rest).getD rest)
  | none => readTime cs

/-- A moment, a float or an integer: the first of them that the text starts with. -/
def readNumber (cs : List Char) : Option (Value × List Char) :=
  match readMoment cs with
  | some rest => some (.moment, rest)
  | none =>
    match readFloat cs with
    | some rest => some (.float, rest)
    | none => (readInteger cs).map fun (n, rest) => (.integer n, rest)

end TieredMemory.Toml
