import TieredMemory.CommandLine.Reader
import TieredMemory.CommandLine.Run
import TieredMemory.CommandLine.Usage

/-!
# The program

Hands the arguments and the files to the library and shows what comes back.
-/
set_option autoImplicit false

namespace TieredMemory.Main

open CommandLine

/-- What went wrong with a file, by the number that the host gives the cause. -/
def ofHost (e : IO.Error) : FileError :=
  match e with
  | .noFileOrDirectory .. => .missing
  | .inappropriateType _ 21 _ | .resourceExhausted _ 21 _ | .otherError 21 _ => .isDirectory
  | .inappropriateType _ 20 _ | .resourceExhausted _ 20 _ | .otherError 20 _ => .notDirectory
  | .alreadyExists .. => .exists
  | .invalidArgument _ 36 _ => .nameTooLong
  | e => .other (toString e)

def attempt {α : Type} (action : IO α) : IO (Except FileError α) :=
  try return .ok (← action)
  catch e => return .error (ofHost e)

/-- The text of a file of the host; a path that leads nowhere is missing, whatever stops it. -/
def readText (path : String) : IO (Except FileError String) := do
  match ← attempt (IO.FS.realPath path) with
  | .error _ => return .error .missing
  | .ok found =>
    match ← attempt (IO.FS.readBinFile found) with
    | .error e => return .error e
    | .ok bytes =>
      match String.fromUTF8? bytes with
      | some text => return .ok text
      | none => return .error .notText

def isDirectory (path : String) : IO Bool := do
  match ← attempt (IO.FS.realPath path) with
  | .error _ => return false
  | .ok found => found.isDir

def namesIn? (path : String) : IO (Except FileError (Option (List ByteArray))) := do
  if ← isDirectory path then
    let entries ← attempt do (← IO.FS.realPath path).readDir
    return entries.map fun entries => some (entries.toList.map fun e => e.fileName.toUTF8)
  else return .ok none

def host : FileAccess IO where
  read := readText
  list? := namesIn?
  isDirectory := isDirectory
  makeDirectory path := attempt (IO.FS.createDir path)
  write path text := attempt (IO.FS.writeFile path text)
  workingDirectory := return (← IO.currentDir).toString

/-- The log that is asked for by a number of requests for detail; none without a request. -/
def logLevel? : Nat → Option LogLevel
  | 0 => none
  | 1 => some .info
  | 2 => some .debug
  | _ => some .trace

def showLog (verbosity : Nat) (events : List Event) : IO Unit := do
  match logLevel? verbosity with
  | none => return ()
  | some level =>
    for e in events do
      if level.shows e.level then IO.eprintln s!"[{e.level.name}] {e.message}"

/-- Shows how a run has ended, and gives its exit code. -/
def finish (o : Outcome) : IO UInt32 := do
  IO.print o.stdout
  match o.ending with
  | .ok () => return 0
  | .error (.error e) =>
    IO.eprintln s!"error: {e.message}"
    return 1
  | .error (.fault f) =>
    IO.eprintln f.message
    return 101

def refuse (r : Refusal) : IO UInt32 := do
  if r.exitCode = 0 then IO.print r.text else IO.eprint r.text
  return UInt32.ofNat r.exitCode

end TieredMemory.Main

def main (args : List String) : IO UInt32 := do
  match TieredMemory.CommandLine.read args with
  | .error r => TieredMemory.Main.refuse r
  | .ok invocation =>
    let outcome ← invocation.run TieredMemory.Main.host
    TieredMemory.Main.showLog invocation.verbosity outcome.events
    TieredMemory.Main.finish outcome
