import TieredMemory.Word

/-!
# Contiguous bit ranges of a word

A field may be empty: a topology level with one instance needs no selector bits. An empty field
reads as zero, ignores writes, and has `hi` just below `lo`.
-/
set_option autoImplicit false

namespace TieredMemory

/-- The bits from `lo` up to but not including `top`. -/
structure Bitfield where
  lo : Nat
  top : Nat
  lo_le_top : lo ≤ top
  top_pos : 0 < top
  top_le : top ≤ 64
  deriving DecidableEq

inductive BitfieldFault where
  | inverted
  | outsideWord
  deriving DecidableEq, Repr

def BitfieldFault.message : BitfieldFault → String
  | .inverted => "bitfield hi bit must not be below lo bit"
  | .outsideWord => "bitfield must lie within a 64-bit word"

namespace Bitfield

/-- The field whose highest and lowest bits are given. -/
def span (hi lo : Nat) (ordered : lo ≤ hi := by decide) (inside : hi < 64 := by decide) :
    Bitfield where
  lo := lo
  top := hi + 1
  lo_le_top := by omega
  top_pos := by omega
  top_le := by omega

/-- `span` on bounds that are not known to be in order; the order is looked at first. -/
def ofBounds (hi lo : Nat) : Except BitfieldFault Bitfield :=
  if ordered : lo ≤ hi then
    if inside : hi < 64 then .ok (span hi lo ordered inside) else .error .outsideWord
  else .error .inverted

def single (position : Nat) : Except BitfieldFault Bitfield := ofBounds position position

/-- The field of `width` bits that ends just below bit `top`, if it lies in the word. -/
def below? (top width : Nat) : Option Bitfield :=
  if h : 0 < top ∧ top ≤ 64 ∧ width ≤ top then
    some ⟨top - width, top, by omega, h.1, h.2.1⟩
  else none

variable (f g : Bitfield) (word value : UInt64)

/-- The highest bit; `lo - 1` for an empty field. -/
def hi : Nat := f.top - 1

def bits : Nat := f.top - f.lo

def isEmpty : Bool := f.top == f.lo

/-- The largest value that the field holds. -/
def mask : UInt64 := Word.shiftRight Word.largest (64 - f.bits)

/-- Whether the field holds `value` without losing bits. -/
def fits : Bool := value &&& ~~~f.mask == 0

def get : UInt64 := Word.shiftRight word f.lo &&& f.mask

/-- The word with the field replaced; bits of `value` above the field's width are dropped. -/
def set : UInt64 :=
  (word &&& ~~~(Word.shiftLeft f.mask f.lo)) ||| Word.shiftLeft (value &&& f.mask) f.lo

def set? : Option UInt64 := if f.fits value then some (f.set word value) else none

def overlaps : Bool := f.lo < g.top && g.lo < f.top

def text : String := "[" ++ Nat.repr f.hi ++ ":" ++ Nat.repr f.lo ++ "]"

@[simp] theorem span_lo (hi lo : Nat) (h : lo ≤ hi) (h' : hi < 64) :
    (span hi lo h h').lo = lo := rfl

end Bitfield

end TieredMemory
