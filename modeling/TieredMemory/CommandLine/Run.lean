import TieredMemory.CommandLine.Command
import TieredMemory.CommandLine.Error
import TieredMemory.Files.Creation
import TieredMemory.Firmware.Header
import TieredMemory.Firmware.LinkerScript
import TieredMemory.Report.Banks
import TieredMemory.Report.Fields
import TieredMemory.Report.Presets
import TieredMemory.Report.Validation
import TieredMemory.Toml.Counted

/-!
# Running a command

A command on a machine is a pure function of the machine, up to the file that it may write. Files
are reached through the access that the caller gives.
-/
set_option autoImplicit false

namespace TieredMemory.CommandLine

/-- What a run has shown, and how it has ended. -/
structure Outcome where
  events : List Event
  stdout : String
  ending : Except (Failure CommandError) Unit

namespace Outcome

def ofLogged (x : Logged (Failure CommandError) String) : Outcome :=
  match x.outcome with
  | .ok text => ⟨x.events, text, .ok ()⟩
  | .error e => ⟨x.events, "", .error e⟩

def failed (events : List Event) (e : Failure CommandError) : Outcome := ⟨events, "", .error e⟩

def after (o : Outcome) (events : List Event) : Outcome := { o with events := events ++ o.events }

end Outcome

/-- A computation on addresses as part of a command. -/
def onAddresses {α : Type} (x : Logged AddressError α) : Logged (Failure CommandError) α :=
  x.mapError fun cause => .error (.address cause)

/-- The findings on a machine; errors among them end the command. -/
def validation (machine : Machine) : Outcome :=
  match machine.validate with
  | ⟨events, .error fault⟩ => .failed events (.fault fault)
  | ⟨events, .ok findings⟩ =>
    let errors := Report.errorCount findings
    ⟨events, Report.findings machine.name findings,
      if errors = 0 then .ok () else .error (.error (.invalidMachine machine.name errors))⟩

def display (machine : Machine) (x : AddressMap → Logged (Failure CommandError) String) :
    Outcome :=
  .ofLogged do
    let m ← onAddresses machine.addressMap
    x m

/-- A document, and the file it goes to if it is not shown. -/
structure Document where
  title : String
  output : Option String
  content : Logged (Failure CommandError) String

def createAbove {m : Type → Type} [Monad m] (files : FileAccess m) (path : String) :
    m (Except (Failure CommandError) Unit) := do
  match Path.parent? path with
  | none | some "" => return .ok ()
  | some parent =>
    return (← files.createDirectories parent).mapError fun e => .error (.creating parent e)

/-- Writes a text to a file, after the directories that it stands in. -/
def writeFile {m : Type → Type} [Monad m] (files : FileAccess m) (path text : String) :
    m (Except (Failure CommandError) Unit) := do
  match ← createAbove files path with
  | .error e => return .error e
  | .ok () => return (← files.write path text).mapError fun e => .error (.writing path e)

def deliver {m : Type → Type} [Monad m] (files : FileAccess m) (d : Document) : m Outcome := do
  match d.output, d.content with
  | none, content => return .ofLogged content
  | some _, ⟨events, .error e⟩ => return .failed events e
  | some path, ⟨events, .ok text⟩ =>
    match ← writeFile files path text with
    | .error e => return .failed events e
    | .ok () => return ⟨events, s!"Generated {d.title} → {path}\n", .ok ()⟩

def headerDocument (machine : Machine) (output : Option String) : Document where
  title := "C header"
  output := output
  content := do
    let m ← onAddresses machine.addressMap
    Firmware.Header.render m

def linkerScriptDocument (machine : Machine) (output : Option String) : Document where
  title := "linker script"
  output := output
  content := do
    let m ← onAddresses machine.addressMap
    (Firmware.LinkerScript.render m).mapError (.map .linkerScript)

def Task.run {m : Type → Type} [Monad m] (files : FileAccess m) (machine : Machine) :
    Task → m Outcome
  | .header output => deliver files (headerDocument machine output)
  | .linkerScript output => deliver files (linkerScriptDocument machine output)
  | .fields format => return display machine fun a => pure (Report.fields a format)
  | .ranges format => return .ofLogged do
    let banks ← machine.banks.mapError (.map .address)
    return Report.banks machine.name banks format
  | .decode raw issuer => return display machine fun a =>
    (a.describe raw issuer).mapError fun e => .error (.resolving e)
  | .encode description => return display machine fun a => do
    let raw ← onAddresses (a.encodeBuilderLogged description)
    return Word.addressText raw ++ "\n"
  | .validate => return validation machine

namespace Selection

variable (selection : Selection)

/-- The machine with the counts of the selection. A machine that only the counts define is named for
them. -/
def apply (machine : Machine) : Machine :=
  let machine := { machine with
    pxns := selection.pxns.getD machine.pxns
    pods := selection.pods.getD machine.pods
    cores := selection.cores.getD machine.cores }
  let counted := selection.pxns.isSome || selection.pods.isSome || selection.cores.isSome
  if counted && selection.config.isNone && selection.preset.isNone then
    { machine with name := s!"custom-{machine.pxns}x{machine.pods}x{machine.cores}" }
  else machine

def builtin : Except CommandError Machine :=
  match selection.preset with
  | none => .ok .singleCore
  | some name =>
    match Machine.preset? name with
    | some machine => .ok machine
    | none => .error (.unknownPreset name)

/-- The selected machine before its counts are changed: from the file if one is given. -/
def source {m : Type → Type} [Monad m] (files : FileAccess m) :
    m (Logged CommandError Machine) := do
  match selection.config with
  | some path => return (← Machine.load files path).mapError (.loading path)
  | none => return .ofExcept selection.builtin

def resolve {m : Type → Type} [Monad m] (files : FileAccess m) :
    m (Logged CommandError Machine) := do
  return (← selection.source files) >>= fun machine =>
    Logged.noting (.ok (selection.apply machine)) fun selected =>
      .machineSelected selected.name selected.topology

end Selection

def Invocation.run {m : Type → Type} [Monad m] (files : FileAccess m) (i : Invocation) :
    m Outcome := do
  match i.command with
  | .template name =>
    let written := Toml.counted name (Machine.template name)
    return .ofLogged (.ofExcept (written.mapError (.map .unwritable)))
  | .presets =>
    let directory ← files.workingDirectory
    match ← Machine.discover files "" with
    | .ok found => return ⟨[], Report.machines (found.map (·.within directory)), .ok ()⟩
    | .error e => return ⟨[], Report.builtins, .error (.error (.discovering e))⟩
  | .onMachine task =>
    match ← i.selection.resolve files with
    | ⟨events, .error e⟩ => return .failed events (.error e)
    | ⟨events, .ok machine⟩ => return (← task.run files machine).after events

end TieredMemory.CommandLine
