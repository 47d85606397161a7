import TieredMemory.Layout

/-!
# Planning a layout

Each level gets the fewest bits that tell its instances apart. The three levels together may take
the bits between the flags and the shared offset; a topology that needs more has no layout.
-/
set_option autoImplicit false

namespace TieredMemory

/-- The fewest bits that tell `count` instances apart: the least `n` with `count ≤ 2 ^ n`. -/
def idBits (count : UInt64) : Nat :=
  if count.toNat ≤ 1 then 0 else Nat.log2 (count.toNat - 1) + 1

namespace Layout

/-- The bits between the `is L2SP` and the `is CTRL` flag. -/
def idBitsAvailable : Nat := isL2spFlag.lo - isCtrlFlag.hi - 1

def placeBelow (top width : Nat) : Except AddressError Bitfield :=
  match Bitfield.below? top width with
  | some f => .ok f
  | none => .error (.doesNotFitBelow width top)

/-- The first two fields of the list that overlap, as an error of the tier and mode. -/
def overlapIn? (l : Layout) (mode : Mode) (tier : Tier) : List Field → Option AddressError
  | [] => none
  | a :: rest =>
    match rest.find? fun b => (l.field a).overlaps (l.field b) with
    | some b => some (.fieldsOverlap mode tier a (l.field a) b (l.field b))
    | none => l.overlapIn? mode tier rest

def checkDisjoint (l : Layout) : Except AddressError Unit :=
  let found := Mode.all.findSome? fun mode => Tier.all.findSome? fun tier =>
    (Field.encoding? mode tier).bind (l.overlapIn? mode tier)
  match found with
  | some e => .error e
  | none => .ok ()

def firstEmptyLevel? (t : Topology) : Option Level :=
  Level.all.find? fun level => t.count level == 0

def plan (t : Topology) : Except AddressError Layout :=
  match firstEmptyLevel? t with
  | some level => .error (.emptyLevel level)
  | none =>
    let pxnBits := idBits t.pxns
    let podBits := idBits t.pods
    let coreBits := idBits t.cores
    if pxnBits + podBits + coreBits > idBitsAvailable then
      .error (.idBudget t pxnBits podBits coreBits idBitsAvailable)
    else do
      let pxn ← placeBelow isL2spFlag.lo pxnBits
      let pod ← placeBelow pxn.lo podBits
      let core ← placeBelow pod.lo coreBits
      let dramOffset ← placeBelow pxn.lo pxn.lo
      let l2spOffset ← placeBelow pod.lo pod.lo
      let layout : Layout := ⟨pxn, pod, core, dramOffset, l2spOffset⟩
      layout.checkDisjoint
      return layout

end Layout

end TieredMemory
