/-!
# Access to files

What the commands need of a file system, in a monad of the caller's choice: a tree of files as a
value, or the machine's own.
-/
set_option autoImplicit false

namespace TieredMemory

inductive FileError where
  | missing
  | exists
  | notDirectory
  | isDirectory
  | notText
  /-- A name, or the path as a whole, has too many bytes. -/
  | nameTooLong
  /-- A name holds the character that ends names. -/
  | nulInName
  | other (text : String)
  deriving DecidableEq, Repr

def FileError.message : FileError → String
  | .missing => "No such file or directory (os error 2)"
  | .exists => "File exists (os error 17)"
  | .notDirectory => "Not a directory (os error 20)"
  | .isDirectory => "Is a directory (os error 21)"
  | .notText => "stream did not contain valid UTF-8"
  | .nameTooLong => "File name too long (os error 36)"
  | .nulInName => "file name contained an unexpected NUL byte"
  | .other text => text

structure FileAccess (m : Type → Type) where
  /-- The text of a file; `missing` whenever the path leads nowhere. -/
  read : String → m (Except FileError String)
  /-- The names in a directory, in no particular order; nothing if the path is not a directory. One
  entry that cannot be told fails the whole. -/
  list? : String → m (Except FileError (Option (List ByteArray)))
  isDirectory : String → m Bool
  /-- Makes a directory, where there was nothing, in one that is there. -/
  makeDirectory : String → m (Except FileError Unit)
  /-- Writes a file of the given text, in place of the one that was there. -/
  write : String → String → m (Except FileError Unit)
  workingDirectory : m String

end TieredMemory
