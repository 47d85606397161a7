import TieredMemory.CommandLine.Argument

/-!
# What a user is told about the command line
-/
set_option autoImplicit false

namespace TieredMemory.CommandLine

/-- What is wrong with the arguments; nothing if help or the version was asked for. -/
def Refusal.complaint? : Refusal → Option String
  | .unknownArgument => some "an argument is not known here"
  | .tooManyValues => some "a flag takes no value"
  | .invalidValue => some "a value is missing or not one of the choices"
  | .unreadableValue => some "a value cannot be read"
  | .missingArgument => some "an argument is missing"
  | .conflict => some "two arguments do not go together"
  | .unknownVerb => some "there is no such command"
  | .missingVerb | .noArguments => some "a command is missing"
  | .help | .version => none

def optionText (slot : Slot) : String :=
  match slot.optionName? with
  | some name => s!" [--{name} <value>]"
  | none => " <value>"

def verbLine (verb : Verb) : String :=
  let arguments := verb.positional?.toList ++ verb.options
  "  " ++ verb.name ++ String.join (arguments.map optionText) ++ "\n"

def usage : String :=
  "Usage: pandomap" ++ String.join (sharedOptions.map optionText) ++ " [-v] <command>\n\n" ++
    "Commands:\n" ++ String.join (Verb.all.map verbLine)

/-- What is shown to a user who has made a mistake, or none. -/
def Refusal.text (r : Refusal) : String :=
  match r.complaint? with
  | some complaint => s!"error: {complaint}\n\n{usage}"
  | none => if r = .version then versionText else usage

end TieredMemory.CommandLine
