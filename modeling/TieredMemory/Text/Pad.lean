/-!
# Columns

A text is filled up with blanks to a number of characters; a longer one stays as it is.
-/
set_option autoImplicit false

namespace TieredMemory.Text

def padRight (width : Nat) (s : String) : String := String.ofList (s.toList.rightpad width ' ')

def padLeft (width : Nat) (s : String) : String := String.ofList (s.toList.leftpad width ' ')

end TieredMemory.Text
