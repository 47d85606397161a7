import TieredMemory.CommandLine.Argument

/-!
# Scanning arguments

Arguments stand on two levels: those before the verb, and the verb's own with the rest. An option is
looked at when the next argument that has a meaning comes, or at the end of its level; so of two
mistakes the one found first is reported, and an argument without any meaning wins over a bad value
before it.
-/
set_option autoImplicit false

namespace TieredMemory.CommandLine

/-- The arguments of one level, as far as they have been read. -/
structure Scan where
  values : List (Slot × Value)
  verbosity : Nat
  /-- The slot filled last, whose value is not yet looked at, or still to come. -/
  pending : Option (Slot × Option String)

namespace Scan

def empty : Scan := ⟨[], 0, none⟩

variable (s : Scan)

/-- Whether an option stands at the end and its value is to come. -/
def awaitsValue : Bool := s.pending matches some (_, none)

/-- Reads the value of a slot, which must not have one. -/
def fill (slot : Slot) (text : String) : Except Refusal Scan :=
  if (s.values.lookup slot).isSome then .error .conflict
  else do
    let value ← slot.read text
    return { s with values := (slot, value) :: s.values, pending := none }

/-- Looks at the slot filled last. -/
def settle : Except Refusal Scan :=
  match s.pending with
  | none => .ok s
  | some (_, none) => .error .invalidValue
  | some (slot, some text) => s.fill slot text

def isFilled (slot : Slot) : Bool :=
  (s.values.lookup slot).isSome || s.pending.any (·.1 == slot)

def moreVerbose : Except Refusal Scan := do
  let s ← s.settle
  return { s with verbosity := s.verbosity + 1 }

/-- Ends the scan by what a flag asks for, unless the arguments before it are wrong. -/
def stop (reason : Refusal) : Except Refusal Scan := do
  let _ ← s.settle
  throw reason

end Scan

/-- A level of arguments: before any verb, or those of a verb. -/
abbrev Scope := Option Verb

def Scope.options : Scope → List Slot
  | none => sharedOptions
  | some verb => sharedOptions ++ verb.options

/-- What a flag that is spelled out does. -/
def longFlag? (scope : Scope) : String → Option (Scan → Except Refusal Scan)
  | "help" => some (·.stop .help)
  | "verbose" => some Scan.moreVerbose
  | "version" => if scope.isNone then some (·.stop .version) else none
  | _ => none

/-- What a flag of one letter does. -/
def shortFlag? (scope : Scope) : Char → Option (Scan → Except Refusal Scan)
  | 'h' => some (·.stop .help)
  | 'v' => some Scan.moreVerbose
  | 'V' => if scope.isNone then some (·.stop .version) else none
  | _ => none

/-- A name, and a value if an equals sign follows the name. -/
def splitValue (cs : List Char) : String × Option String :=
  match cs.dropWhile (· ≠ '=') with
  | [] => (String.ofList cs, none)
  | _ :: value => (String.ofList (cs.takeWhile (· ≠ '=')), some (String.ofList value))

def takeLong (scope : Scope) (s : Scan) (cs : List Char) : Except Refusal Scan :=
  let (name, value?) := splitValue cs
  match scope.options.find? (·.optionName? == some name) with
  | some slot => do
    let s ← s.settle
    match value? with
    | some value => s.fill slot value
    | none => return { s with pending := some (slot, none) }
  | none =>
    match longFlag? scope name, value? with
    | some flag, none => flag s
    | some _, some _ => .error .tooManyValues
    | none, _ => .error .unknownArgument

/-- Letters after a hyphen, from left to right. -/
def takeShort (scope : Scope) : Scan → List Char → Except Refusal Scan
  | s, [] => .ok s
  | s, c :: cs =>
    match shortFlag? scope c with
    | some flag => do
      let s ← flag s
      takeShort scope s cs
    | none => .error .unknownArgument

def takePositional (scope : Scope) (s : Scan) (arg : String) : Except Refusal Scan :=
  match scope with
  | none => .error .unknownVerb
  | some verb =>
    match verb.positional? with
    | none => .error .unknownArgument
    | some slot =>
      if s.isFilled slot then .error .unknownArgument
      else do
        let s ← s.settle
        return { s with pending := some (slot, some arg) }

/-- Arguments after two hyphens that stand alone; none of them is an option or a verb. -/
def scanPlain (scope : Scope) : Scan → List String → Except Refusal Scan
  | s, [] => .ok s
  | s, arg :: rest =>
    if scope.isNone && (arg == "help" || (Verb.ofName? arg).isSome) then .error .unknownArgument
    else do
      let s ← takePositional scope s arg
      scanPlain scope s rest

/-- Help on a verb, if only names of verbs follow: at most one, and it has no verbs below it. -/
def helpOn : List String → Refusal
  | [] => .help
  | [name] => if name = "help" ∨ (Verb.ofName? name).isSome then .help else .unknownVerb
  | _ => .unknownVerb

/-- An argument that is neither a verb nor two hyphens alone. -/
def takeArgument (scope : Scope) (s : Scan) (arg : String) : Except Refusal Scan :=
  match arg.toList with
  | '-' :: '-' :: cs => takeLong scope s cs
  | '-' :: c :: cs => takeShort scope s (c :: cs)
  | _ =>
    match s.pending with
    | some (slot, none) => .ok { s with pending := some (slot, some arg) }
    | _ => takePositional scope s arg

def scanOwn (verb : Verb) : Scan → List String → Except Refusal Scan
  | s, [] => .ok s
  | s, "--" :: rest => scanPlain (some verb) s rest
  | s, arg :: rest => do
    let s ← takeArgument (some verb) s arg
    scanOwn verb s rest

/-- The arguments before a verb, and the verb with what follows it if there is one. -/
def scanShared : Scan → List String → Except Refusal (Scan × Option (Verb × List String))
  | s, [] => .ok (s, none)
  | s, arg :: rest =>
    match s.awaitsValue, arg, Verb.ofName? arg with
    | false, _, some verb => .ok (s, some (verb, rest))
    | false, "help", _ => .error (helpOn rest)
    | _, "--", _ => do
      let s ← scanPlain none s rest
      return (s, none)
    | _, _, _ => do
      let s ← takeArgument none s arg
      scanShared s rest

end TieredMemory.CommandLine
