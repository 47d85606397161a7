import TieredMemory.Toml.Scalar

/-!
# TOML strings

Four forms: basic and literal, each on one line or over several. In a literal form nothing is
escaped; in the forms over several lines a line end right after the opening quotes is skipped, and
a line end is one character however it is written.
-/
set_option autoImplicit false

namespace TieredMemory.Toml

/-- Characters that stand for themselves in comments and literal strings: tab and everything that is
no control character. -/
def isPlain (c : Char) : Bool := c == '\t' || (' ' ≤ c && c != '\x7f')

/-- The character that an escape with hexadecimal digits names. -/
def hexEscape? (digits : List Char) : Option Char :=
  let n := digitsValue 16 digits
  if digits.all isHexDigit && n.isValidChar then some (Char.ofNat n) else none

def shortEscape? : Char → Option Char
  | 'b' => some '\x08'
  | 't' => some '\t'
  | 'n' => some '\n'
  | 'f' => some '\x0c'
  | 'r' => some '\r'
  | '"' => some '"'
  | '\\' => some '\\'
  | _ => none

def readBasic : List Char → Option (List Char × List Char)
  | [] => none
  | '"' :: rest => some ([], rest)
  | '\\' :: 'u' :: a :: b :: c :: d :: rest => do
    let x ← hexEscape? [a, b, c, d]
    let (text, after) ← readBasic rest
    return (x :: text, after)
  | '\\' :: 'U' :: a :: b :: c :: d :: e :: f :: g :: h :: rest => do
    let x ← hexEscape? [a, b, c, d, e, f, g, h]
    let (text, after) ← readBasic rest
    return (x :: text, after)
  | '\\' :: e :: rest => do
    let x ← shortEscape? e
    let (text, after) ← readBasic rest
    return (x :: text, after)
  | c :: rest =>
    if isPlain c then do
      let (text, after) ← readBasic rest
      return (c :: text, after)
    else none

def readLiteral : List Char → Option (List Char × List Char)
  | [] => none
  | '\'' :: rest => some ([], rest)
  | c :: rest =>
    if isPlain c then do
      let (text, after) ← readLiteral rest
      return (c :: text, after)
    else none

def isBlank (c : Char) : Bool := c == ' ' || c == '\t'

def skipBlanks (cs : List Char) : List Char := cs.dropWhile isBlank

def readLineEnd : List Char → Option (List Char)
  | '\n' :: rest => some rest
  | '\r' :: '\n' :: rest => some rest
  | _ => none

/-- All blanks and line ends. A carriage return that ends no line stays. -/
def skipBlankLines : List Char → List Char
  | '\r' :: '\n' :: rest => skipBlankLines rest
  | c :: rest => if isBlank c || c == '\n' then skipBlankLines rest else c :: rest
  | [] => []

/-- What an escaped line end leaves: everything up to the next visible character is dropped. -/
def readEscapedLineEnd (cs : List Char) : Option (List Char) :=
  (readLineEnd (skipBlanks cs)).map skipBlankLines

/-- The closing quotes of a string over several lines: three, after up to two that belong to the
text. The text quotes come first in the result. -/
def readClosing (quote : Char) : List Char → Option (List Char × List Char)
  | a :: b :: c :: d :: e :: rest =>
    if a = quote ∧ b = quote ∧ c = quote then
      if d = quote then
        if e = quote then some ([quote, quote], rest) else some ([quote], e :: rest)
      else some ([], d :: e :: rest)
    else none
  | [a, b, c, d] =>
    if a = quote ∧ b = quote ∧ c = quote then
      if d = quote then some ([quote], []) else some ([], [d])
    else none
  | [a, b, c] => if a = quote ∧ b = quote ∧ c = quote then some ([], []) else none
  | _ => none

/-- A basic string over several lines, after its opening quotes; the first argument bounds the
number of steps. -/
def readBasicLines : Nat → List Char → Option (List Char × List Char)
  | 0, _ => none
  | fuel + 1, cs =>
    match readClosing '"' cs with
    | some (quotes, after) => some (quotes, after)
    | none =>
      match cs with
      | [] => none
      | '\\' :: 'u' :: a :: b :: c :: d :: rest => do
        let x ← hexEscape? [a, b, c, d]
        let (text, after) ← readBasicLines fuel rest
        return (x :: text, after)
      | '\\' :: 'U' :: a :: b :: c :: d :: e :: f :: g :: h :: rest => do
        let x ← hexEscape? [a, b, c, d, e, f, g, h]
        let (text, after) ← readBasicLines fuel rest
        return (x :: text, after)
      | '\\' :: e :: rest =>
        match shortEscape? e with
        | some x => do
          let (text, after) ← readBasicLines fuel rest
          return (x :: text, after)
        | none => do
          let rest ← readEscapedLineEnd (e :: rest)
          readBasicLines fuel rest
      | '\n' :: rest | '\r' :: '\n' :: rest => do
        let (text, after) ← readBasicLines fuel rest
        return ('\n' :: text, after)
      | c :: rest =>
        if isPlain c then do
          let (text, after) ← readBasicLines fuel rest
          return (c :: text, after)
        else none

/-- A literal string over several lines, after its opening quotes; the first argument bounds the
number of steps. -/
def readLiteralLines : Nat → List Char → Option (List Char × List Char)
  | 0, _ => none
  | fuel + 1, cs =>
    match readClosing '\'' cs with
    | some (quotes, after) => some (quotes, after)
    | none =>
      match cs with
      | [] => none
      | '\n' :: rest | '\r' :: '\n' :: rest => do
        let (text, after) ← readLiteralLines fuel rest
        return ('\n' :: text, after)
      | c :: rest =>
        if isPlain c then do
          let (text, after) ← readLiteralLines fuel rest
          return (c :: text, after)
        else none

def skipLineEnd (cs : List Char) : List Char := (readLineEnd cs).getD cs

def readString : List Char → Option (List Char × List Char)
  | '"' :: '"' :: '"' :: rest => readBasicLines (rest.length + 1) (skipLineEnd rest)
  | '"' :: rest => readBasic rest
  | '\'' :: '\'' :: '\'' :: rest => readLiteralLines (rest.length + 1) (skipLineEnd rest)
  | '\'' :: rest => readLiteral rest
  | _ => none

end TieredMemory.Toml
