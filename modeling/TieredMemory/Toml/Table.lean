import TieredMemory.Toml.Value

/-!
# Assembling TOML tables

A table comes into being by its own header, by a header of a table inside it, or by a dotted key.
Which of these it was decides who may still add to it: a header opens a table once, and dotted keys
reach only into tables that no header has opened.
-/
set_option autoImplicit false

namespace TieredMemory.Toml

/-- How a table came into being. -/
inductive Origin where
  /-- By its own header. -/
  | header
  /-- By the header of a table inside it. -/
  | inner
  /-- By a dotted key. -/
  | dotted
  deriving DecidableEq, Repr

/-- What a key stands for while the document is read. -/
inductive Node where
  /-- A finished value, to which nothing is added. -/
  | value (value : Value)
  | table (origin : Origin) (entries : List (String × Node))
  /-- An array of tables that headers in double brackets add to; the last one first. -/
  | tables (elements : List (List (String × Node)))

abbrev Entries := List (String × Node)

namespace Entries

def find? (key : String) (es : Entries) : Option Node := es.lookup key

/-- The entries with a new last one, or with the one of that key exchanged. -/
def insert (key : String) (node : Node) (es : Entries) : Entries :=
  if es.any (·.1 == key) then es.map fun e => if e.1 == key then (key, node) else e
  else es ++ [(key, node)]

def erase (key : String) (es : Entries) : Entries := es.filter fun e => e.1 != key

def insertNew? (key : String) (node : Node) (es : Entries) : Option Entries :=
  if (es.find? key).isSome then none else some (es ++ [(key, node)])

/-- Adds a key to the table at the end of a dotted path. The tables on the way come into being as
they are needed; only tables that no header has opened are entered, and the last one must have come
into being by a dotted key itself. -/
def insertDotted? (key : String) (node : Node) (origin : Origin) :
    List String → Entries → Option Entries
  | [], es => if origin = .dotted then es.insertNew? key node else none
  | part :: path, es =>
    match es.find? part with
    | none => do
      let inner ← insertDotted? key node .dotted path []
      return es.insert part (.table .dotted inner)
    | some (.table .header _) => none
    | some (.table origin entries) => do
      let inner ← insertDotted? key node origin path entries
      return es.insert part (.table origin inner)
    | some (.tables (last :: others)) => do
      let inner ← insertDotted? key node .header path last
      return es.insert part (.tables (inner :: others))
    | some (.tables []) | some (.value _) => none

def insertKey? (path : List String) (key : String) (node : Node) (es : Entries) : Option Entries :=
  match path with
  | [] => es.insertNew? key node
  | _ => es.insertDotted? key node .header path

/-- Changes the table at the end of a header's path. The tables on the way come into being as they
are needed; of an array of tables the last one is entered. -/
def change? {α : Type} (f : Entries → Option (α × Entries)) :
    List String → Entries → Option (α × Entries)
  | [], es => f es
  | part :: path, es =>
    match es.find? part with
    | none => do
      let (a, inner) ← change? f path []
      return (a, es.insert part (.table .inner inner))
    | some (.table origin entries) => do
      let (a, inner) ← change? f path entries
      return (a, es.insert part (.table origin inner))
    | some (.tables (last :: others)) => do
      let (a, inner) ← change? f path last
      return (a, es.insert part (.tables (inner :: others)))
    | some (.tables []) | some (.value _) => none

end Entries

mutual

def Node.toValue : Node → Value
  | .value value => value
  | .table _ entries => .table (entriesToValues entries)
  | .tables elements => .array (elementsToValues elements).reverse

def entriesToValues : List (String × Node) → List (String × Value)
  | [] => []
  | (key, node) :: entries => (key, node.toValue) :: entriesToValues entries

def elementsToValues : List (List (String × Node)) → List Value
  | [] => []
  | entries :: elements => .table (entriesToValues entries) :: elementsToValues elements

end

/-- The table of an inline table's keys, each with its path. -/
def inlineTable? (pairs : List (List String × String × Value)) : Option Value :=
  (pairs.foldlM (fun es (path, key, value) => Entries.insertKey? path key (.value value) es) []).map
    fun es => .table (entriesToValues es)

end TieredMemory.Toml
