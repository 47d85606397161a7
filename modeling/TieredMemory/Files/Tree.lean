import TieredMemory.Files.Creation
import TieredMemory.Files.Node

/-!
# Trees of files

A file system as a value, with a working directory somewhere in it. A path is walked segment by
segment from the top or from the working directory; every segment is looked up in a directory that
is there, so `n/..` leads nowhere if there is no `n`.
-/
set_option autoImplicit false

namespace TieredMemory

structure FileTree where
  top : FileNode
  /-- The names that lead from the top to the working directory. -/
  home : List String

namespace FileTree

def longestName : Nat := 255

def longestPath : Nat := 4095

def empty (home : List String) : FileTree := ⟨.ofNames home, home⟩

variable (t : FileTree)

def checkName (name : String) : Except FileError Unit :=
  if longestName < name.utf8ByteSize then .error .nameTooLong else .ok ()

def checkPath (path : String) : Except FileError Unit :=
  if path.contains '\x00' then .error .nulInName
  else if path = "" then .error .missing
  else if longestPath < path.utf8ByteSize then .error .nameTooLong
  else .ok ()

def step (p : Place) (segment : String) : Except FileError Place :=
  if !p.node.isDirectory then .error .notDirectory
  else if segment = "." then .ok p
  else if segment = ".." then .ok p.up
  else do
    checkName segment
    match p.enter? segment with
    | some next => .ok next
    | none => .error .missing

/-- Where steps lead from the working directory. -/
def walkHome : Except FileError Place := t.home.foldlM step ⟨t.top, []⟩

/-- Where steps lead from the place at which a path starts. -/
def walk (path : String) (steps : List String) : Except FileError Place := do
  checkPath path
  let start ← if Path.isAbsolute path then .ok ⟨t.top, []⟩ else t.walkHome
  steps.foldlM step start

/-- What a path means. One that ends in a slash can only mean a directory. -/
def locate (path : String) : Except FileError Place := do
  let p ← t.walk path (Path.steps path)
  if path.endsWith "/" && !p.node.isDirectory then .error .notDirectory else .ok p

/-- The name that a path ends in, unless it ends in dots or is the root. -/
def lastName? (path : String) : Option String :=
  (Path.steps path).getLast?.filter fun step => step ≠ "." ∧ step ≠ ".."

/-- The directory that the last step of a path is taken in. -/
def locateAbove (path : String) : Except FileError Place := do
  let p ← t.walk path (Path.steps path).dropLast
  if p.node.isDirectory then .ok p else .error .notDirectory

def insert (p : Place) (name : String) (node : FileNode) : FileTree :=
  { t with top := p.exchange (p.node.withEntry name node) }

def read (path : String) : Except FileError ByteArray := do
  match (← t.locate path).node with
  | .file bytes => .ok bytes
  | .directory _ => .error .isDirectory

/-- The text of a file; a path that leads nowhere is missing, whatever stops it. -/
def readText (path : String) : Except FileError String :=
  match t.read path with
  | .ok bytes =>
    match String.fromUTF8? bytes with
    | some text => .ok text
    | none => .error .notText
  | .error .isDirectory => .error .isDirectory
  | .error _ => .error .missing

def list? (path : String) : Option (List String) :=
  match t.locate path with
  | .ok ⟨.directory entries, _⟩ => some (entries.map (·.1))
  | _ => none

/-- Makes a directory, where there was nothing, in one that is there. -/
def makeDirectory (path : String) : Except FileError FileTree := do
  let p ← t.locateAbove path
  match lastName? path with
  | none => .error .exists
  | some name =>
    checkName name
    match p.node.child? name with
    | some _ => .error .exists
    | none => .ok (t.insert p name (.directory []))

/-- Writes a file into a directory that is there. A path that ends in a slash or in dots can only
mean a directory. -/
def write (path : String) (bytes : ByteArray) : Except FileError FileTree := do
  let p ← t.locateAbove path
  match lastName? path, path.endsWith "/" with
  | none, _ | some _, true => .error .isDirectory
  | some name, false =>
    checkName name
    match p.node.child? name with
    | some (.directory _) => .error .isDirectory
    | _ => .ok (t.insert p name (.file bytes))

def files : List (String × ByteArray) :=
  match t.walkHome with
  | .ok p => p.node.files.map fun f => (String.intercalate "/" f.1, f.2)
  | .error _ => []

/-- Changes the tree of a state, or leaves it as it is if that fails. -/
def change (f : FileTree → Except FileError FileTree) : StateM FileTree (Except FileError Unit) :=
  fun t =>
    match f t with
    | .ok next => (.ok (), next)
    | .error e => (.error e, t)

/-- Access to a tree of files whose working directory has the given path. -/
def access (home : String) : FileAccess (StateM FileTree) where
  read path := fun t => (t.readText path, t)
  list? path := fun t => (.ok ((t.list? path).map (·.map String.toUTF8)), t)
  isDirectory path := fun t => ((t.list? path).isSome, t)
  makeDirectory path := change (·.makeDirectory path)
  write path text := change (·.write path text.toUTF8)
  workingDirectory := pure home

/-- The tree with one file more, or one directory more if no bytes are given, and with those above
it. What cannot be made is left out. -/
def stock (path : String) (bytes? : Option ByteArray) : FileTree :=
  let create (path : String) (t : FileTree) := (((access "").createDirectories path).run t).2
  match bytes? with
  | none => create path t
  | some bytes =>
    let t := create ((Path.parent? path).getD "") t
    ((change (·.write path bytes)).run t).2

end FileTree

end TieredMemory
