import TieredMemory.CommandLine.Scan

/-!
# Reading a command line

The arguments of both levels together name a command. Of an option given on both levels the verb's
own counts.
-/
set_option autoImplicit false

namespace TieredMemory.CommandLine

namespace Scan

variable (s : Scan)

def text? (slot : Slot) : Option String :=
  match s.values.lookup slot with
  | some (.text value) => some value
  | _ => none

def word? (slot : Slot) : Option UInt64 :=
  match s.values.lookup slot with
  | some (.word value) => some value
  | _ => none

def format : Report.Format :=
  match s.values.lookup .format with
  | some (.format value) => value
  | _ => .text

def tier? : Option Tier :=
  match s.values.lookup .tier with
  | some (.tier value) => some value
  | _ => none

def mode : Mode :=
  match s.values.lookup .mode with
  | some (.mode value) => value
  | _ => .relative

/-- Refuses a file and a built-in machine on the same level. -/
def checkSource : Except Refusal Unit :=
  if s.isFilled .config && s.isFilled .preset then .error .conflict else .ok ()

def selection : Selection where
  config := s.text? .config
  preset := s.text? .preset
  pxns := s.word? .pxns
  pods := s.word? .pods
  cores := s.word? .cores

/-- The core that the arguments name; a coordinate that is not given is 0. -/
def issuer : CoreId :=
  ⟨(s.word? .pxn).getD 0, (s.word? .pod).getD 0, (s.word? .core).getD 0⟩

/-- The command of a verb, if it has all that the verb needs. -/
def command? (verb : Verb) : Option Command :=
  match verb with
  | .header => some (.onMachine (.header (s.text? .output)))
  | .linkerScript => some (.onMachine (.linkerScript (s.text? .output)))
  | .fields => some (.onMachine (.fields s.format))
  | .ranges => some (.onMachine (.ranges s.format))
  | .decode => (s.word? .raw).map fun raw => .onMachine (.decode raw s.issuer)
  | .encode => do
    let tier ← s.tier?
    let offset ← s.word? .offset
    return .onMachine (.encode (.ofParts tier s.mode offset (s.word? .pxn) (s.word? .pod)
      (s.word? .core)))
  | .validate => some (.onMachine .validate)
  | .template => (s.text? .name).map .template
  | .presets => some .presets

end Scan

/-- What counts of two selections: the parts of the first, and the second's where it has none. -/
def Selection.over (first second : Selection) : Selection where
  config := first.config <|> second.config
  preset := first.preset <|> second.preset
  pxns := first.pxns <|> second.pxns
  pods := first.pods <|> second.pods
  cores := first.cores <|> second.cores

/-- Why arguments without a verb are refused. -/
def refuseShared (shared : Scan) : Except Refusal Invocation := do
  let shared ← shared.settle
  if shared.values.isEmpty && shared.verbosity == 0 then throw .noArguments
  else throw .missingVerb

/-- The command that the arguments name. The verb's own are judged first. -/
def read (args : List String) : Except Refusal Invocation := do
  match ← scanShared .empty args with
  | (shared, none) => refuseShared shared
  | (shared, some (verb, rest)) =>
    let own ← (← scanOwn verb .empty rest).settle
    own.checkSource
    let some command := own.command? verb | throw .missingArgument
    let shared ← shared.settle
    shared.checkSource
    let verbosity := if own.verbosity = 0 then shared.verbosity else own.verbosity
    return ⟨own.selection.over shared.selection, verbosity, command⟩

end TieredMemory.CommandLine
