import TieredMemory.Json.Reader
import TieredMemory.Json.Writer
import TieredMemory.Machine.Banks

/-!
# The data model in JSON

A record is an object with its fields as keys, where unknown keys are skipped and a known key stands
once, or an array of its fields in order. Names of tiers and modes are strings; an object with the
name as its only key and `null` as its value is read too.
-/
set_option autoImplicit false

namespace TieredMemory.Json

/-- What a missing field means. -/
inductive Presence where
  | required
  /-- A missing key means `null`. -/
  | nullable
  /-- A missing key, or a missing item at the end, means a default. -/
  | defaulted
  deriving DecidableEq

namespace Value

def membersNamed (members : List (Literal × Value)) (key : String) : List Value :=
  (members.filter fun m => m.1 == some key).map (·.2)

/-- The fields of an object; every key must be a text and every field stand at most once. -/
def fieldsOfObject? (members : List (Literal × Value)) :
    List (String × Presence) → Option (List (Option Value))
  | [] => some []
  | (key, presence) :: fields =>
    match membersNamed members key, presence with
    | [], .required => none
    | [], _ => (fieldsOfObject? members fields).map (none :: ·)
    | [value], _ => (fieldsOfObject? members fields).map (some value :: ·)
    | _, _ => none

/-- The fields of an array, one item each; defaulted fields at the end may be missing. -/
def fieldsOfArray? : List Value → List (String × Presence) → Option (List (Option Value))
  | [], [] => some []
  | [], (_, presence) :: fields =>
    if presence = .defaulted then (fieldsOfArray? [] fields).map (none :: ·) else none
  | _ :: _, [] => none
  | value :: values, _ :: fields => (fieldsOfArray? values fields).map (some value :: ·)

def fields? (fields : List (String × Presence)) : Value → Option (List (Option Value))
  | .object members =>
    if members.all fun m => m.1.isSome then fieldsOfObject? members fields else none
  | .array items => fieldsOfArray? items fields
  | _ => none

/-- A number written as a plain decimal numeral of a word. -/
def word? : Value → Option UInt64
  | .number numeral =>
    if numeral.all Char.isDigit then
      let n := Nat.ofDigitChars 10 numeral 0
      if n < UInt64.size then some (UInt64.ofNat n) else none
    else none
  | _ => none

def text? : Value → Option String
  | .string literal => literal
  | _ => none

def name? : Value → Option String
  | .string literal => literal
  | .object [(key, .null)] => key
  | _ => none

def nullable? {α : Type} (f : Value → Option α) : Option Value → Option (Option α)
  | none | some .null => some none
  | some value => (f value).map some

def orDefault {α : Type} (default : α) (f : Value → Option α) : Option Value → Option α
  | none => some default
  | some value => f value

end Value

end TieredMemory.Json

namespace TieredMemory

open Json (Value)

namespace Tier

def toJson (t : Tier) : Value := .text t.key

def ofJson? (v : Value) : Option Tier := v.name?.bind fun name => all.find? (·.key == name)

end Tier

namespace Mode

def toJson (m : Mode) : Value := .text m.key

def ofJson? (v : Value) : Option Mode := v.name?.bind fun name => all.find? (·.key == name)

end Mode

namespace CoreId

def toJson (c : CoreId) : Value :=
  .record [("pxn", .word c.pxn), ("pod", .word c.pod), ("core", .word c.core)]

def ofJson? (v : Value) : Option CoreId := do
  match ← v.fields? [("pxn", .required), ("pod", .required), ("core", .required)] with
  | [some pxn, some pod, some core] => return ⟨← pxn.word?, ← pod.word?, ← core.word?⟩
  | _ => none

end CoreId

namespace Topology

def toJson (t : Topology) : Value :=
  .record [("pxns", .word t.pxns), ("pods", .word t.pods), ("cores", .word t.cores)]

def ofJson? (v : Value) : Option Topology := do
  match ← v.fields? [("pxns", .required), ("pods", .required), ("cores", .required)] with
  | [some pxns, some pods, some cores] => return ⟨← pxns.word?, ← pods.word?, ← cores.word?⟩
  | _ => none

end Topology

namespace Address

def toJson (a : Address) : Value :=
  .record [("kind", a.tier.toJson), ("mode", a.mode.toJson), ("offset", .word a.offset),
    ("pxn", .optional .word a.pxn), ("pod", .optional .word a.pod),
    ("core", .optional .word a.core), ("issuer", .optional CoreId.toJson a.issuer)]

/-- Reads the parts as they stand; whether they go together is not asked. -/
def ofJson? (v : Value) : Option Address := do
  match ← v.fields? [("kind", .required), ("mode", .required), ("offset", .required),
      ("pxn", .nullable), ("pod", .nullable), ("core", .nullable), ("issuer", .nullable)] with
  | [some tier, some mode, some offset, pxn, pod, core, issuer] =>
    return ⟨← Tier.ofJson? tier, ← Mode.ofJson? mode, ← offset.word?,
      ← Value.nullable? Value.word? pxn, ← Value.nullable? Value.word? pod,
      ← Value.nullable? Value.word? core, ← Value.nullable? CoreId.ofJson? issuer⟩
  | _ => none

end Address

namespace AddressRange

def toJson (r : AddressRange) : Value :=
  .record [("start", .word r.start), ("end", .word r.last), ("interleave-size", .word r.stripe),
    ("interleave-step", .word r.step)]

def ofJson? (v : Value) : Option AddressRange := do
  match ← v.fields? [("start", .required), ("end", .required), ("interleave-size", .required),
      ("interleave-step", .required)] with
  | [some start, some last, some stripe, some step] =>
    return ⟨← start.word?, ← last.word?, ← stripe.word?, ← step.word?⟩
  | _ => none

end AddressRange

namespace Bank

def toJson (b : Bank) : Value :=
  .record [("kind", b.tier.toJson), ("pxn", .word b.pxn), ("pod", .optional .word b.pod),
    ("core", .optional .word b.core), ("bank", .word b.index), ("range", b.range.toJson)]

end Bank

namespace BankedMemory

def toJson (b : BankedMemory) : Value :=
  .record [("size", .word b.size), ("banks", .word b.banks), ("interleave", .word b.interleave)]

def ofJson? (v : Value) : Option BankedMemory := do
  match ← v.fields? [("size", .required), ("banks", .required), ("interleave", .defaulted)] with
  | [some size, some banks, interleave] =>
    return ⟨← size.word?, ← banks.word?, ← Value.orDefault 0 Value.word? interleave⟩
  | _ => none

end BankedMemory

namespace Machine

def sizeToJson (size : UInt64) : Value := .record [("size", .word size)]

def sizeOfJson? (v : Value) : Option UInt64 := do
  match ← v.fields? [("size", .required)] with
  | [some size] => size.word?
  | _ => none

def toJson (machine : Machine) : Value :=
  .record [("name", .text machine.name), ("num-pxn", .word machine.pxns),
    ("pxn-pods", .word machine.pods), ("pod-cores", .word machine.cores),
    ("core-threads", .word machine.coreThreads), ("l1sp", sizeToJson machine.l1spSize),
    ("l2sp", machine.l2sp.toJson), ("dram", machine.dram.toJson),
    ("ctrl", sizeToJson machine.ctrlSize)]

def ofJson? (v : Value) : Option Machine := do
  match ← v.fields? [("name", .required), ("num-pxn", .required), ("pxn-pods", .required),
      ("pod-cores", .required), ("core-threads", .defaulted), ("l1sp", .required),
      ("l2sp", .required), ("dram", .required), ("ctrl", .defaulted)] with
  | [some name, some pxns, some pods, some cores, coreThreads, some l1sp, some l2sp, some dram,
      ctrl] =>
    return {
      name := ← name.text?
      pxns := ← pxns.word?
      pods := ← pods.word?
      cores := ← cores.word?
      coreThreads := ← Value.orDefault defaultCoreThreads Value.word? coreThreads
      l1spSize := ← sizeOfJson? l1sp
      l2sp := ← BankedMemory.ofJson? l2sp
      dram := ← BankedMemory.ofJson? dram
      ctrlSize := ← Value.orDefault defaultCtrlSize sizeOfJson? ctrl }
  | _ => none

end Machine

end TieredMemory
