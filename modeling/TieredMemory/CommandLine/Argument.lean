import TieredMemory.CommandLine.Command
import TieredMemory.Number

/-!
# Arguments and their values

A slot is a place that takes a value, by the name of an option or by position. What a slot accepts
is decided here; where it may stand is decided by the verb.
-/
set_option autoImplicit false

namespace TieredMemory.CommandLine

/-- Why arguments do not name a command to run. -/
inductive Refusal where
  | unknownArgument
  | tooManyValues
  /-- A value is missing, or is none of those there are to choose from. -/
  | invalidValue
  /-- A value cannot be read. -/
  | unreadableValue
  | missingArgument
  | conflict
  | unknownVerb
  | missingVerb
  | noArguments
  | help
  | version
  deriving DecidableEq, Repr

/-- Help and version are what was asked for; all else is an error of the user. -/
def Refusal.exitCode : Refusal → Nat
  | .help | .version => 0
  | _ => 2

def versionText : String := "pandomap 0.1.0\n"

inductive Slot where
  | config
  | preset
  | pxns
  | pods
  | cores
  | output
  | format
  | raw
  | pxn
  | pod
  | core
  | tier
  | mode
  | offset
  | name
  deriving DecidableEq, Repr

/-- What the name of an option is, after two hyphens; some slots are filled by position only. -/
def Slot.optionName? : Slot → Option String
  | .config => some "config"
  | .preset => some "preset"
  | .pxns => some "num-pxn"
  | .pods => some "pxn-pods"
  | .cores => some "pod-cores"
  | .output => some "output"
  | .format => some "format"
  | .pxn => some "pxn"
  | .pod => some "pod"
  | .core => some "core"
  | .tier => some "type"
  | .mode => some "mode"
  | .offset => some "offset"
  | .raw | .name => none

/-- The value in a slot. -/
inductive Value where
  | text (value : String)
  | word (value : UInt64)
  | format (value : Report.Format)
  | tier (value : Tier)
  | mode (value : Mode)
  deriving DecidableEq

def readPath (s : String) : Except Refusal Value :=
  if s = "" then .error .invalidValue else .ok (.text s)

def readWord (read : String → Except NumberError UInt64) (s : String) : Except Refusal Value :=
  match read s with
  | .ok w => .ok (.word w)
  | .error _ => .error .unreadableValue

def readFormat : String → Except Refusal Value
  | "text" => .ok (.format .text)
  | "json" => .ok (.format .json)
  | _ => .error .invalidValue

/-- A name that an alternative has, or not. -/
def readName {α : Type} (ofName? : String → Option α) (value : α → Value) (s : String) :
    Except Refusal Value :=
  match ofName? s with
  | some a => .ok (value a)
  | none => .error .unreadableValue

/-- The value that a text means in a slot. Addresses and offsets may be written in any base, counts
and coordinates in base ten only. -/
def Slot.read : Slot → String → Except Refusal Value
  | .config | .output => readPath
  | .preset | .name => fun s => .ok (.text s)
  | .pxns | .pods | .cores | .pxn | .pod | .core => readWord Number.parseDecimal
  | .raw | .offset => readWord Number.parse
  | .format => readFormat
  | .tier => readName Tier.ofName? .tier
  | .mode => readName Mode.ofName? .mode

inductive Verb where
  | header
  | linkerScript
  | fields
  | ranges
  | decode
  | encode
  | validate
  | template
  | presets
  deriving DecidableEq, Repr

namespace Verb

def all : List Verb :=
  [.header, .linkerScript, .fields, .ranges, .decode, .encode, .validate, .template, .presets]

def name : Verb → String
  | .header => "cheader"
  | .linkerScript => "ldscript"
  | .fields => "fields"
  | .ranges => "ranges"
  | .decode => "decode"
  | .encode => "encode"
  | .validate => "validate"
  | .template => "template"
  | .presets => "presets"

def ofName? (s : String) : Option Verb := all.find? (·.name == s)

def options : Verb → List Slot
  | .header | .linkerScript => [.output]
  | .fields | .ranges => [.format]
  | .decode => [.pxn, .pod, .core]
  | .encode => [.tier, .mode, .offset, .pxn, .pod, .core]
  | .validate | .template | .presets => []

/-- The slot that an argument without a name goes to. -/
def positional? : Verb → Option Slot
  | .decode => some .raw
  | .template => some .name
  | _ => none

end Verb

/-- The options that may stand before and after the verb. -/
def sharedOptions : List Slot := [.config, .preset, .pxns, .pods, .cores]

end TieredMemory.CommandLine
