/-!
# Paths

A path is a text of segments between slashes. Empty segments name nothing, nor does `.` unless the
path starts with it.
-/
set_option autoImplicit false

namespace TieredMemory.Path

def segments (path : String) : List String := (path.toList.splitOn '/').map String.ofList

/-- The segments that are not empty: names, `.` and `..`. -/
def steps (path : String) : List String := (segments path).filter (· ≠ "")

def isAbsolute (path : String) : Bool := path.startsWith "/"

/-- Whether a segment names nothing where it stands; the segments before it are given last first. -/
def isUnnamed (segment : String) (before : List String) : Bool :=
  segment = "" || (segment = "." && !before.isEmpty)

/-- Drops the segments that name nothing from the end of a path, which is given last segment
first. -/
def dropUnnamed : List String → List String
  | [] => []
  | segment :: before =>
    if isUnnamed segment before then dropUnnamed before else segment :: before

/-- The text of segments that are given last first. -/
def ofReversed (path : String) (segments : List String) : String :=
  match segments, isAbsolute path with
  | [], true => "/"
  | segments, _ => String.intercalate "/" segments.reverse

/-- The path without its last segment; empty for a path of one, none for the root. -/
def parent? (path : String) : Option String :=
  match dropUnnamed (segments path).reverse with
  | [] => none
  | _ :: before => some (ofReversed path (dropUnnamed before))

def join (directory name : String) : String :=
  if directory = "" ∨ directory.endsWith "/" then directory ++ name else directory ++ "/" ++ name

end TieredMemory.Path
