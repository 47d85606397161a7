import TieredMemory.Address.Error
import TieredMemory.Toml.Quoted

/-!
# A writer that counts in bytes

Which form a string has, and so its text, does not depend on how runs of quotes are counted. The
writer behind the commands keeps the length of a run in a byte while it looks for the form, and
fails where the byte overflows. What it does write is the text of the form.
-/
set_option autoImplicit false

namespace TieredMemory.Toml

/-- The longest run whose length is a byte. -/
def longestCounted : Nat := 255

/-- Counts the quotes in a row, and the apostrophes in a row. -/
def countQuotes (s : String) : Except ArithmeticFault Unit :=
  if longestCounted < longestRun '"' 0 s.toList ∨ longestCounted < longestRun '\'' 0 s.toList then
    .error .addition
  else .ok ()

/-- A document from this writer, where `s` is the string in it. A document that has no text for a
reason of its own fails for that reason. -/
def counted {ε : Type} (s : String) (document : Except ε String) : Except (Failure ε) String := do
  let text ← Failure.ofError document
  Failure.ofFault (countQuotes s)
  return text

end TieredMemory.Toml
