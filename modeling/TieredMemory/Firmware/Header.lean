import TieredMemory.AddressMap.Logged

/-!
# The C header of an address map

Each field becomes two macros, `NAME_HI` and `NAME_LO`; a field without bits has `HI = LO - 1`. The
fields stand in three sections: the mode bit, the absolute fields, the relative fields.
-/
set_option autoImplicit false

namespace TieredMemory.Firmware.Header

def guardName : String := "__DRV_ADDRESS_MAP_H__"

def defines (f : Field) (b : Bitfield) : List String :=
  ["#define " ++ f.name ++ "_HI " ++ Nat.repr b.hi ++ "ul",
    "#define " ++ f.name ++ "_LO " ++ Nat.repr b.lo ++ "ul"]

/-- A titled section with the macros of the chosen fields, closed by an empty line. -/
def sectionLines (l : Layout) (title : String) (chosen : Field → Bool) : List String :=
  ["/* " ++ title ++ " */"] ++
    ((l.fields.filter fun p => chosen p.1).flatMap fun p => defines p.1 p.2) ++ [""]

def lines (l : Layout) : List String :=
  ["/* This file is automatically generated by the address map generator */",
    "#ifndef " ++ guardName, "#define " ++ guardName, ""] ++
    sectionLines l "Is absolute bit" (· == .isAbsolute) ++
    sectionLines l "Absolute address bits" Field.isAbsoluteOnly ++
    sectionLines l "Relative address bits" Field.isRelativeOnly ++
    ["#endif /* " ++ guardName ++ " */"]

def joinLines (ls : List String) : String := String.join (ls.map (· ++ "\n"))

def text (l : Layout) : String := joinLines (lines l)

def render {ε : Type} (m : AddressMap) : Logged ε String :=
  Logged.noting (.ok (text m.layout)) fun t => .headerRendered m.topology t.utf8ByteSize

end TieredMemory.Firmware.Header
