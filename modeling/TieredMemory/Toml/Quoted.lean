/-!
# Writing TOML strings

The form is chosen so that as little as possible is escaped: a basic string if nothing in the text
needs it, else a literal one, else one over several lines. Every text has a form.
-/
set_option autoImplicit false

namespace TieredMemory.Toml

/-- The length of the longest run of `c` in the text, where `current` characters of a run have been
seen already. -/
def longestRun (c : Char) : (current : Nat) → List Char → Nat
  | current, [] => current
  | current, d :: rest =>
    if d = c then longestRun c (current + 1) rest else max current (longestRun c 0 rest)

/-- Control characters that no form holds as they are. -/
def isCode (c : Char) : Bool := (c < ' ' && c != '\t' && c != '\n') || c == '\x7f'

inductive StringForm where
  | basic
  | literal
  | basicLines
  | literalLines
  deriving DecidableEq, Repr

/-- The form for a text: the first whose conditions hold. -/
def StringForm.choose (cs : List Char) : StringForm :=
  let codes := cs.any isCode
  let escapes := cs.contains '\\'
  let lineEnds := cs.contains '\n'
  let quotes := longestRun '"' 0 cs
  let apostrophes := longestRun '\'' 0 cs
  if !codes && !escapes && quotes == 0 && !lineEnds then .basic
  else if !codes && apostrophes == 0 && !lineEnds then .literal
  else if !codes && !escapes && quotes ≤ 2 then .basicLines
  else if !codes && apostrophes ≤ 2 then .literalLines
  else if lineEnds then .basicLines
  else .basic

def upperHexDigit (n : Nat) : Char := (Nat.digitChar n).toUpper

def codeEscape (c : Char) : List Char :=
  ['\\', 'u', '0', '0', upperHexDigit (c.toNat / 16), upperHexDigit (c.toNat % 16)]

/-- A character of a basic string, quotes and line ends apart. -/
def escapeChar (c : Char) : List Char :=
  if c = '\x08' then ['\\', 'b']
  else if c = '\t' then ['\\', 't']
  else if c = '\x0c' then ['\\', 'f']
  else if c = '\r' then ['\\', 'r']
  else if c = '\\' then ['\\', '\\']
  else if c < ' ' || c == '\x7f' then codeEscape c
  else [c]

/-- A character of a basic string on one line. -/
def escapeBasic (c : Char) : List Char :=
  if c = '"' then ['\\', '"']
  else if c = '\n' then ['\\', 'n']
  else escapeChar c

/-- The characters of a basic string over several lines, after `seen` quotes in a row: every third
one is escaped. -/
def escapeLines : (seen : Nat) → List Char → List Char
  | _, [] => []
  | seen, c :: rest =>
    if c = '"' then
      if seen < 2 then c :: escapeLines (seen + 1) rest else '\\' :: '"' :: escapeLines 0 rest
    else if c = '\n' then c :: escapeLines 0 rest
    else escapeChar c ++ escapeLines 0 rest

/-- The line end after opening quotes, which is not part of the text; only a text with line ends
of its own has it. -/
def openingLineEnd (cs : List Char) : List Char := if cs.contains '\n' then ['\n'] else []

def quoteAs (form : StringForm) (cs : List Char) : List Char :=
  match form with
  | .basic => '"' :: (cs.flatMap escapeBasic ++ ['"'])
  | .literal => '\'' :: (cs ++ ['\''])
  | .basicLines =>
    '"' :: '"' :: '"' :: (openingLineEnd cs ++ escapeLines 0 cs ++ ['"', '"', '"'])
  | .literalLines => '\'' :: '\'' :: '\'' :: (openingLineEnd cs ++ cs ++ ['\'', '\'', '\''])

def quote (s : String) : List Char := quoteAs (StringForm.choose s.toList) s.toList

end TieredMemory.Toml
