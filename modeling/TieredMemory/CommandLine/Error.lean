import TieredMemory.AddressMap.Description
import TieredMemory.Machine.Load

/-!
# How a command fails
-/
set_option autoImplicit false

namespace TieredMemory.CommandLine

inductive CommandError where
  | unknownPreset (name : String)
  | loading (path : String) (cause : LoadError)
  | discovering (cause : LoadError)
  | address (cause : AddressError)
  | linkerScript (cause : AddressError)
  | resolving (cause : ResolutionError)
  | invalidMachine (name : String) (errors : Nat)
  | unwritable (cause : TomlWriteError)
  | creating (path : String) (cause : FileError)
  | writing (path : String) (cause : FileError)
  deriving DecidableEq

def CommandError.message : CommandError → String
  | .unknownPreset name =>
    s!"unknown preset: '{name}'. Use 'pandomap presets' to see available presets."
  | .loading path cause => s!"loading {path}: {cause.detailed}"
  | .discovering cause => cause.detailed
  | .address cause => cause.message
  | .linkerScript cause => s!"address error: {cause.message}: {cause.message}"
  | .resolving cause => cause.message
  | .invalidMachine name errors => s!"validation error: system '{name}' has {errors} error(s)"
  | .unwritable _ => "TOML serialization error"
  | .creating path cause => s!"creating {path}: {cause.message}"
  | .writing path cause => s!"writing {path}: {cause.message}"

end TieredMemory.CommandLine
