import TieredMemory.Toml.Text
import TieredMemory.Toml.Table

/-!
# Reading TOML

A text is a list of lines: keys with values, and headers of tables. Assembling the lines gives the
document's table.
-/
set_option autoImplicit false

namespace TieredMemory.Toml

def isBareKeyChar (c : Char) : Bool := c.isAlphanum || c == '_' || c == '-'

def readKeyPart (cs : List Char) : Option (String × List Char) :=
  match cs with
  | '"' :: rest => (readBasic rest).map fun (text, after) => (String.ofList text, after)
  | '\'' :: rest => (readLiteral rest).map fun (text, after) => (String.ofList text, after)
  | _ =>
    match cs.takeWhile isBareKeyChar with
    | [] => none
    | part => some (String.ofList part, cs.dropWhile isBareKeyChar)

/-- A key of one or more parts, with blanks around each; the first argument bounds the number of
parts. -/
def readKeyParts : Nat → List Char → Option (List String × List Char)
  | 0, _ => none
  | fuel + 1, cs => do
    let (part, rest) ← readKeyPart (skipBlanks cs)
    match skipBlanks rest with
    | '.' :: rest =>
      let (parts, after) ← readKeyParts fuel rest
      return (part :: parts, after)
    | rest => return ([part], rest)

/-- A key: the path to its table and its last part. -/
def readKey (cs : List Char) : Option (List String × String × List Char) := do
  let (parts, rest) ← readKeyParts (nestingLimit - 1) cs
  let last ← parts.getLast?
  return (parts.dropLast, last, rest)

def skipComment : List Char → List Char
  | '#' :: rest => rest.dropWhile isPlain
  | cs => cs

/-- Blanks, comments and line ends between the items of an array; the first argument is true within
a comment, which a line end must follow. -/
def skipGap : (inComment : Bool) → List Char → Option (List Char)
  | inComment, [] => if inComment then none else some []
  | _, '\n' :: rest => skipGap false rest
  | _, '\r' :: '\n' :: rest => skipGap false rest
  | true, c :: rest => if isPlain c then skipGap true rest else none
  | false, c :: rest =>
    if c = '#' then skipGap true rest
    else if isBlank c then skipGap false rest
    else if c = '\r' then none
    else some (c :: rest)

mutual

/-- A value; the first argument bounds the number of steps, the second the nesting that is left. -/
def readValue : Nat → Nat → List Char → Option (Value × List Char)
  | 0, _, _ => none
  | fuel + 1, depth, cs =>
    match cs with
    | 't' :: 'r' :: 'u' :: 'e' :: rest => some (.boolean true, rest)
    | 'f' :: 'a' :: 'l' :: 's' :: 'e' :: rest => some (.boolean false, rest)
    | '"' :: _ | '\'' :: _ =>
      (readString cs).map fun (text, after) => (.string (String.ofList text), after)
    | '[' :: rest =>
      match depth with
      | 0 => none
      | depth + 1 => (readItems fuel depth rest).map fun (items, after) => (.array items, after)
    | '\x7b' :: rest =>
      match depth with
      | 0 => none
      | depth + 1 => do
        let (pairs, after) ← match skipBlanks rest with
          | '\x7d' :: after => some ([], after)
          | _ => readPairs fuel depth rest
        let table ← inlineTable? pairs
        return (table, after)
    | _ => readNumber cs

/-- The items of an array and the closing bracket; a comma may follow the last item. -/
def readItems : Nat → Nat → List Char → Option (List Value × List Char)
  | 0, _, _ => none
  | fuel + 1, depth, cs => do
    match ← skipGap false cs with
    | ']' :: rest => return ([], rest)
    | rest =>
      let (value, rest) ← readValue fuel depth rest
      match ← skipGap false rest with
      | ',' :: rest =>
        let (values, after) ← readItems fuel depth rest
        return (value :: values, after)
      | ']' :: rest => return ([value], rest)
      | _ => none

/-- The keys and values of an inline table that has some, and the closing brace. They stand on one
line and no comma follows the last. -/
def readPairs : Nat → Nat → List Char → Option (List (List String × String × Value) × List Char)
  | 0, _, _ => none
  | fuel + 1, depth, cs => do
    let (path, key, rest) ← readKey cs
    let rest ← expect '=' rest
    let (value, rest) ← readValue fuel depth (skipBlanks rest)
    match skipBlanks rest with
    | ',' :: rest =>
      let (pairs, after) ← readPairs fuel depth rest
      return ((path, key, value) :: pairs, after)
    | '\x7d' :: rest => return ([(path, key, value)], rest)
    | _ => none

end

/-- A line that says something. -/
inductive Line where
  | assignment (path : List String) (key : String) (value : Value)
  | tableHeader (path : List String) (key : String)
  | arrayHeader (path : List String) (key : String)

/-- What may follow on a line: blanks, a comment, and then the line or the text ends. -/
def readLineRest (cs : List Char) : Option (List Char) :=
  match skipComment (skipBlanks cs) with
  | [] => some []
  | rest => readLineEnd rest

def readHeader : List Char → Option (Line × List Char)
  | '[' :: '[' :: rest => do
    let (path, key, rest) ← readKey rest
    let rest ← expect ']' rest
    let rest ← expect ']' rest
    return (.arrayHeader path key, rest)
  | '[' :: rest => do
    let (path, key, rest) ← readKey rest
    let rest ← expect ']' rest
    return (.tableHeader path key, rest)
  | _ => none

/-- A key with its value; the first argument bounds the number of steps. -/
def readAssignment (fuel : Nat) (cs : List Char) : Option (Line × List Char) := do
  let (path, key, rest) ← readKey cs
  let rest ← expect '=' rest
  let (value, rest) ← readValue fuel (nestingLimit - 1) (skipBlanks rest)
  return (.assignment path key value, rest)

/-- All lines of a text; the first argument bounds their number, and the steps of each. -/
def readLines : Nat → List Char → Option (List Line)
  | 0, _ => none
  | fuel + 1, cs =>
    match skipBlanks cs with
    | [] => some []
    | '#' :: rest => (readLineRest ('#' :: rest)).bind (readLines fuel)
    | '\n' :: rest => readLines fuel rest
    | '\r' :: rest => (readLineEnd ('\r' :: rest)).bind (readLines fuel)
    | '[' :: rest => do
      let (line, after) ← readHeader ('[' :: rest)
      let after ← readLineRest after
      let lines ← readLines fuel after
      return line :: lines
    | cs => do
      let (line, after) ← readAssignment fuel cs
      let after ← readLineRest after
      let lines ← readLines fuel after
      return line :: lines

/-- The document so far, and the table that the last header has opened, not yet put back. -/
structure Draft where
  root : Entries
  current : Entries
  /-- The place of the opened table; none before the first header. -/
  place : Option (List String × String × Bool)

namespace Draft

def empty : Draft := ⟨[], [], none⟩

def close? (d : Draft) : Option Entries :=
  match d.place with
  | none => some d.current
  | some (path, key, false) =>
    (d.root.change? (fun es => (es.insertNew? key (.table .header d.current)).map ((), ·)) path).map
      (·.2)
  | some (path, key, true) =>
    (d.root.change? (fun es =>
      match es.find? key with
      | none => some ((), es.insert key (.tables [d.current]))
      | some (.tables elements) => some ((), es.insert key (.tables (d.current :: elements)))
      | some _ => none) path).map (·.2)

/-- Opens the table of a header. A table that so far came into being by inner headers only keeps
what it has; every other one of that name is refused. -/
def openTable? (path : List String) (key : String) (root : Entries) : Option Draft :=
  (root.change? (fun es =>
    match es.find? key with
    | none => some ([], es)
    | some (.table .inner entries) => some (entries, es.erase key)
    | some _ => none) path).map fun (current, root) => ⟨root, current, some (path, key, false)⟩

def openElement? (path : List String) (key : String) (root : Entries) : Option Draft :=
  (root.change? (fun es =>
    match es.find? key with
    | none | some (.tables _) => some ((), es)
    | some _ => none) path).map fun (_, root) => ⟨root, [], some (path, key, true)⟩

def addLine? (d : Draft) : Line → Option Draft
  | .assignment path key value =>
    (d.current.insertKey? path key (.value value)).map fun current => { d with current := current }
  | .tableHeader path key => d.close?.bind (openTable? path key)
  | .arrayHeader path key => d.close?.bind (openElement? path key)

end Draft

def assemble? (lines : List Line) : Option Value := do
  let d ← lines.foldlM Draft.addLine? Draft.empty
  let es ← d.close?
  return .table (entriesToValues es)

def byteOrderMark : Char := '\ufeff'

def skipMark : List Char → List Char
  | c :: rest => if c = byteOrderMark then rest else c :: rest
  | [] => []

/-- Enough steps for any text of that length: a line takes a character, and a value two steps for
each of its own. -/
def stepsFor (cs : List Char) : Nat := 2 * cs.length + 3

def read? (s : String) : Option Value := do
  let cs := skipMark s.toList
  let lines ← readLines (stepsFor cs) cs
  assemble? lines

end TieredMemory.Toml
