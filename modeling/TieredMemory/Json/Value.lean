/-!
# JSON values

Numbers keep their numeral and objects the order and the repetitions of their keys, so a reader of
typed data can decide what it accepts.
-/
set_option autoImplicit false

namespace TieredMemory.Json

/-- What a string literal denotes; nothing if it has half of a surrogate pair. -/
abbrev Literal := Option String

inductive Value where
  | null
  | bool (value : Bool)
  | number (numeral : List Char)
  | string (literal : Literal)
  | array (items : List Value)
  | object (members : List (Literal × Value))

namespace Value

def text (s : String) : Value := .string (some s)

def word (w : UInt64) : Value := .number (Nat.toDigits 10 w.toNat)

def nat (n : Nat) : Value := .number (Nat.toDigits 10 n)

def optional {α : Type} (f : α → Value) : Option α → Value
  | none => .null
  | some a => f a

def record (members : List (String × Value)) : Value :=
  .object (members.map fun m => (some m.1, m.2))

end Value

end TieredMemory.Json
