import TieredMemory.Machine.Presets
import TieredMemory.Toml.Reader
import TieredMemory.Toml.Quoted

/-!
# Machine descriptions in TOML

A description is a table with the counts, and within it a table for each memory. Unknown keys are
skipped. A memory may also be written as an array of its fields in order.
-/
set_option autoImplicit false

namespace TieredMemory

namespace Toml.Value

/-- A number that a word holds. -/
def word? : Value → Option UInt64
  | .integer (.ofNat n) => if n < UInt64.size then some (UInt64.ofNat n) else none
  | _ => none

def text? : Value → Option String
  | .string text => some text
  | _ => none

/-- Fields by key from a table, or by place from an array, where what follows is skipped. -/
def fields? (keys : List String) : Value → Option (List (Option Value))
  | .table entries => some (keys.map fun key => entries.lookup key)
  | .array items => some ((List.range keys.length).map fun i => items[i]?)
  | _ => none

def orDefault {α : Type} (default : α) (f : Value → Option α) : Option Value → Option α
  | none => some default
  | some value => f value

end Toml.Value

/-- Why a description cannot be written: a number is too large for a signed 64-bit integer. -/
inductive TomlWriteError where
  | tooLarge (value : UInt64)
  deriving DecidableEq

namespace BankedMemory

def ofToml? (v : Toml.Value) : Option BankedMemory := do
  match ← v.fields? ["size", "banks", "interleave"] with
  | [some size, some banks, interleave] =>
    return ⟨← size.word?, ← banks.word?, ← Toml.Value.orDefault 0 Toml.Value.word? interleave⟩
  | _ => none

end BankedMemory

namespace Machine

def sizeOfToml? (v : Toml.Value) : Option UInt64 := do
  match ← v.fields? ["size"] with
  | [some size] => size.word?
  | _ => none

def ofTomlValue? (v : Toml.Value) : Option Machine := do
  match ← v.fields? ["name", "num-pxn", "pxn-pods", "pod-cores", "core-threads", "l1sp", "l2sp",
      "dram", "ctrl"] with
  | [some name, some pxns, some pods, some cores, coreThreads, some l1sp, some l2sp, some dram,
      ctrl] =>
    return {
      name := ← name.text?
      pxns := ← pxns.word?
      pods := ← pods.word?
      cores := ← cores.word?
      coreThreads := ← Toml.Value.orDefault defaultCoreThreads Toml.Value.word? coreThreads
      l1spSize := ← sizeOfToml? l1sp
      l2sp := ← BankedMemory.ofToml? l2sp
      dram := ← BankedMemory.ofToml? dram
      ctrlSize := ← Toml.Value.orDefault defaultCtrlSize sizeOfToml? ctrl }
  | _ => none

def ofToml? (text : String) : Option Machine := (Toml.read? text).bind ofTomlValue?

def tomlNumber (key : String) (value : UInt64) : Except TomlWriteError (List Char) :=
  if value.toNat < Toml.integerBound then
    .ok (key.toList ++ " = ".toList ++ Nat.toDigits 10 value.toNat ++ ['\n'])
  else .error (.tooLarge value)

/-- A line of a header, after an empty one. -/
def tomlHeader (name : String) : List Char := '\n' :: '[' :: (name.toList ++ [']', '\n'])

def tomlBanked (name : String) (b : BankedMemory) : Except TomlWriteError (List Char) := do
  let size ← tomlNumber "size" b.size
  let banks ← tomlNumber "banks" b.banks
  let interleave ← tomlNumber "interleave" b.interleave
  return tomlHeader name ++ size ++ banks ++ interleave

def tomlSize (name : String) (size : UInt64) : Except TomlWriteError (List Char) := do
  let size ← tomlNumber "size" size
  return tomlHeader name ++ size

/-- The lines after the name: the counts, then a table for each memory. -/
def tomlNumbers (machine : Machine) : Except TomlWriteError (List Char) := do
  let pxns ← tomlNumber "num-pxn" machine.pxns
  let pods ← tomlNumber "pxn-pods" machine.pods
  let cores ← tomlNumber "pod-cores" machine.cores
  let coreThreads ← tomlNumber "core-threads" machine.coreThreads
  let l1sp ← tomlSize "l1sp" machine.l1spSize
  let l2sp ← tomlBanked "l2sp" machine.l2sp
  let dram ← tomlBanked "dram" machine.dram
  let ctrl ← tomlSize "ctrl" machine.ctrlSize
  return pxns ++ pods ++ cores ++ coreThreads ++ l1sp ++ l2sp ++ dram ++ ctrl

/-- The description as a text. -/
def toToml (machine : Machine) : Except TomlWriteError String := do
  let numbers ← machine.tomlNumbers
  return String.ofList ("name = ".toList ++ Toml.quote machine.name ++ '\n' :: numbers)

/-- A description to start from: the single-core machine under a name. -/
def template (name : String) : Except TomlWriteError String :=
  { singleCore with name := name }.toToml

end Machine

end TieredMemory
