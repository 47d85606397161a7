/-!
# Files within directories

A node is a file or a directory of named nodes. A place is a node together with the way down to it,
so that one can go up again and exchange what stands there.
-/
set_option autoImplicit false

namespace TieredMemory

inductive FileNode where
  | file (bytes : ByteArray)
  | directory (entries : List (String × FileNode))

namespace FileNode

def isDirectory : FileNode → Bool
  | .file _ => false
  | .directory _ => true

/-- What a directory holds; nothing for a file. -/
def entries : FileNode → List (String × FileNode)
  | .file _ => []
  | .directory entries => entries

def child? (n : FileNode) (name : String) : Option FileNode := n.entries.lookup name

def withEntry (n : FileNode) (name : String) (child : FileNode) : FileNode :=
  .directory ((name, child) :: n.entries.filter fun e => e.1 ≠ name)

/-- An empty directory that the given names lead down to. -/
def ofNames : List String → FileNode
  | [] => .directory []
  | name :: rest => .directory [(name, ofNames rest)]

mutual

/-- All files below a node, each with the names that lead down to it. -/
def files : FileNode → List (List String × ByteArray)
  | .file bytes => [([], bytes)]
  | .directory entries => filesOf entries

def filesOf : List (String × FileNode) → List (List String × ByteArray)
  | [] => []
  | (name, node) :: rest => (node.files.map fun f => (name :: f.1, f.2)) ++ filesOf rest

end

end FileNode

structure Place where
  node : FileNode
  /-- The directories above, innermost first, each with the name that leads down from it. -/
  above : List (String × FileNode)

namespace Place

/-- The directory above; the top is above itself. -/
def up (p : Place) : Place :=
  match p.above with
  | [] => p
  | (_, directory) :: above => ⟨directory, above⟩

/-- The node of a name, which stands in the directory at this place. -/
def enter? (p : Place) (name : String) : Option Place :=
  (p.node.child? name).map fun child => ⟨child, (name, p.node) :: p.above⟩

/-- The whole with another node at this place. -/
def exchange (p : Place) (node : FileNode) : FileNode :=
  p.above.foldl (fun below (name, directory) => directory.withEntry name below) node

end Place

end TieredMemory
