import TieredMemory.Firmware.Header
import TieredMemory.Proofs.AddressMap.Contents
import TieredMemory.Proofs.Lists
import TieredMemory.Proofs.Text.Lines
import TieredMemory.Proofs.Toml.Numbers

/-!
# What a program reads from the C header

The text is read the way the preprocessor reads it, line by line: a comment line gives a title, a
`#define` line a name and what stands behind it. No line of the header ends early, so the macros
read are the ones written, each under the title of its section. Their numbers are those of a field
of at most 61 bits, and then a shift and a mask in words give what the map reads.
-/
set_option autoImplicit false

namespace TieredMemory.Firmware.Header

/-! ## Reading a header -/

/-- A macro with the title above it and what stands behind its name. -/
structure Macro where
  heading : String
  name : String
  value : String
  deriving DecidableEq

/-- What stands between the marks of a line that is a comment. -/
def title? (line : List Char) : Option String :=
  ((line.dropPrefix? "/* ".toList).bind (·.dropSuffix? " */".toList)).map String.ofList

/-- The name that a line defines and what stands behind it. -/
def define? (line : List Char) : Option (String × String) :=
  (line.dropPrefix? "#define ".toList).map fun rest =>
    (String.ofList (rest.takeWhile (· ≠ ' ')),
      String.ofList ((rest.dropWhile (· ≠ ' ')).drop 1))

/-- The macros of the lines below a heading. -/
def macrosBelow : (heading : String) → List (List Char) → List Macro
  | _, [] => []
  | heading, line :: rest =>
    match define? line with
    | some (name, value) => ⟨heading, name, value⟩ :: macrosBelow heading rest
    | none => macrosBelow ((title? line).getD heading) rest

def macrosOf (text : String) : List Macro := macrosBelow "" (Text.lines text)

/-- The number of a literal of type `unsigned long`: decimal digits, then `ul`. Digits after a
leading `0` would be octal. -/
def unsignedLong? (literal : String) : Option UInt64 :=
  let digits := literal.toList.takeWhile Char.isDigit
  let value := Nat.ofDigitChars 10 digits 0
  if literal.toList = digits ++ "ul".toList ∧ digits ≠ [] ∧
      (digits.head? = some '0' → digits = ['0']) ∧ value < UInt64.size then
    some (UInt64.ofNat value)
  else none

/-- The bits of a word from `lo` up to `hi`, as a program computes them from the two macros. -/
def extract (hi lo raw : UInt64) : UInt64 := (raw >>> lo) &&& ((1 <<< (hi - lo + 1)) - 1)

/-! ## What it is to be right -/

/-- The sections of a header: the mode bit stands alone, all else with the addresses of a mode. -/
inductive Part where
  | modeBit
  | ofMode (mode : Mode)
  deriving DecidableEq

def Part.title : Part → String
  | .modeBit => "Is absolute bit"
  | .ofMode .absolute => "Absolute address bits"
  | .ofMode .relative => "Relative address bits"

/-- The mode bit aside, a field belongs to the mode that encodes some tier with it. -/
def Part.Covers : Part → Field → Prop
  | .modeBit, f => f = .isAbsolute
  | .ofMode mode, f =>
    f ≠ .isAbsolute ∧ ∃ tier fields, Field.encoding? mode tier = some fields ∧ f ∈ fields

/-- The only macro of a name stands in a part and has a number for its value. -/
def DefinedAs (macros : List Macro) (part : Part) (name : String) (n : UInt64) : Prop :=
  ∃ literal, macros.filter (·.name == name) = [⟨part.title, name, literal⟩] ∧
    unsignedLong? literal = some n

/-- Two numbers by which a program reads a field off a word. No shift is by the width of a word
or more; a field without bits ends just below its start, and only such a field is always 0. -/
structure Delimits (f : Bitfield) (hi lo : UInt64) : Prop where
  start : lo < 64
  width : hi - lo + 1 < 64
  reads : ∀ raw, extract hi lo raw = f.get raw
  empty : f.isEmpty = true ↔ hi = lo - 1
  zero : f.isEmpty = true ↔ ∀ raw, extract hi lo raw = 0

/-! ## The macros of a field -/

def literal (n : Nat) : String := Nat.repr n ++ "ul"

def macrosFor (heading : String) (l : Layout) (f : Field) : List Macro :=
  [⟨heading, f.name ++ "_HI", literal (l.field f).hi⟩,
    ⟨heading, f.name ++ "_LO", literal (l.field f).lo⟩]

theorem define?_line {name value : String} (h : ' ' ∉ name.toList) :
    define? ("#define " ++ name ++ " " ++ value).toList = some (name, value) := by
  have hne : ∀ c ∈ name.toList, (decide (c ≠ ' ')) = true := fun c hc =>
    decide_eq_true fun heq => h (heq ▸ hc)
  have hline : ("#define " ++ name ++ " " ++ value).toList =
      "#define ".toList ++ (name.toList ++ ' ' :: value.toList) := by
    simp only [String.toList_append, List.append_assoc]
    rfl
  rw [define?, hline, List.dropPrefix?_append_of_beq _ (beq_self_eq_true _), Option.map_some,
    List.takeWhile_append_of_pos hne, List.dropWhile_append_of_pos hne]
  simp

/-- Names neither end a line nor stop short of its value. -/
theorem ne_of_mem_name {f : Field} {c : Char} (h : c ∈ f.name.toList) : c ≠ ' ' ∧ c ≠ '\n' := by
  have hall : f.name.toList.all (fun c => c ≠ ' ' ∧ c ≠ '\n') = true := by cases f <;> rfl
  exact of_decide_eq_true (List.all_eq_true.mp hall c h)

/-- The line for one end of a field. -/
theorem define?_field (f : Field) (suffix : String) (n : Nat) (h : ' ' ∉ suffix.toList) :
    define? ("#define " ++ f.name ++ (suffix ++ " ") ++ Nat.repr n ++ "ul").toList =
      some (f.name ++ suffix, literal n) := by
  have hname : ' ' ∉ (f.name ++ suffix).toList := by
    rw [String.toList_append, List.mem_append, not_or]
    exact ⟨fun hc => (ne_of_mem_name hc).1 rfl, h⟩
  rw [← define?_line hname]
  simp only [literal, String.append_assoc]

theorem macrosBelow_defines (heading : String) (l : Layout) (f : Field)
    (rest : List (List Char)) :
    macrosBelow heading ((defines f (l.field f)).map String.toList ++ rest) =
      macrosFor heading l f ++ macrosBelow heading rest := by
  have hhi := define?_field f "_HI" (l.field f).hi (by decide)
  have hlo := define?_field f "_LO" (l.field f).lo (by decide)
  rw [show "_HI" ++ " " = "_HI " from rfl] at hhi
  rw [show "_LO" ++ " " = "_LO " from rfl] at hlo
  simp only [defines, macrosFor, List.map_cons, List.cons_append, List.map_nil, List.nil_append,
    macrosBelow, hhi, hlo]

theorem macrosBelow_fields (heading : String) (l : Layout) (fs : List Field)
    (rest : List (List Char)) :
    macrosBelow heading ((fs.flatMap fun f => defines f (l.field f)).map String.toList ++ rest) =
      fs.flatMap (macrosFor heading l) ++ macrosBelow heading rest := by
  induction fs with
  | nil => rfl
  | cons f fs ih =>
    rw [List.flatMap_cons, List.map_append, List.append_assoc, macrosBelow_defines, ih,
      List.flatMap_cons, List.append_assoc]

theorem macrosBelow_sectionLines (above : String) (l : Layout) (part : Part)
    (chosen : Field → Bool) (rest : List (List Char)) :
    macrosBelow above ((sectionLines l part.title chosen).map String.toList ++ rest) =
      (Field.all.filter chosen).flatMap (macrosFor part.title l) ++
        macrosBelow part.title rest := by
  have htitle (rest : List (List Char)) :
      macrosBelow above (("/* " ++ part.title ++ " */").toList :: rest) =
        macrosBelow part.title rest := by
    obtain _ | ⟨_ | _⟩ := part <;> rfl
  have hblank : macrosBelow part.title ("".toList :: rest) = macrosBelow part.title rest := rfl
  have hfields : ((l.fields.filter fun p => chosen p.1).flatMap fun p => defines p.1 p.2) =
      (Field.all.filter chosen).flatMap fun f => defines f (l.field f) := by
    rw [Layout.fields, List.filter_map, List.flatMap_map]
    rfl
  rw [sectionLines, hfields, List.map_append, List.map_append, List.map_cons, List.map_nil,
    List.map_cons, List.map_nil, List.append_assoc, List.append_assoc, List.singleton_append,
    htitle, macrosBelow_fields, List.singleton_append, hblank]

/-- The part that a field belongs to. -/
def partOf (f : Field) : Part :=
  if f = .isAbsolute then .modeBit
  else if f.isAbsoluteOnly then .ofMode .absolute
  else .ofMode .relative

theorem covers_iff (part : Part) (f : Field) : part.Covers f ↔ part = partOf f := by
  constructor
  · intro h
    obtain _ | mode := part
    · obtain rfl : f = .isAbsolute := h
      rfl
    · obtain ⟨hne, tier, fields, he, hf⟩ := h
      have hall : ∀ g ∈ fields, g ≠ .isAbsolute → .ofMode mode = partOf g := by
        cases mode <;> cases tier <;> cases he <;> decide
      exact hall f hf hne
  · rintro rfl
    cases f with
    | isAbsolute => rfl
    | absoluteIsDram | absolutePxn | absoluteDramOffset | relativeIsDram | relativeDramOffset =>
      exact ⟨by decide, .dram, _, rfl, by decide⟩
    | absoluteIsL2sp | absolutePod | absoluteL2spOffset | relativeIsL2sp | relativeL2spOffset =>
      exact ⟨by decide, .l2sp, _, rfl, by decide⟩
    | absoluteCore | absoluteL1spOffset | relativeL1spOffset =>
      exact ⟨by decide, .l1sp, _, rfl, by decide⟩
    | absoluteIsCtrl | absoluteCtrlOffset => exact ⟨by decide, .ctrl, _, rfl, by decide⟩

theorem newline_not_mem_defines {f : Field} {b : Bitfield} {line : String}
    (h : line ∈ defines f b) : '\n' ∉ line.toList := by
  have hname : '\n' ∉ f.name.toList := fun hc => (ne_of_mem_name hc).2 rfl
  have hdigits (n : Nat) : '\n' ∉ Nat.toDigits 10 n := fun hc =>
    absurd ((Toml.isNumeral_toDigits n).digits _ hc) (by decide)
  simp only [defines, List.mem_cons, List.not_mem_nil, or_false] at h
  obtain rfl | rfl := h <;>
    simp [hname, hdigits]

theorem newline_not_mem_sectionLines {l : Layout} {part : Part} {chosen : Field → Bool}
    {line : String} (h : line ∈ sectionLines l part.title chosen) : '\n' ∉ line.toList := by
  simp only [sectionLines, List.mem_append, List.mem_singleton, List.mem_flatMap] at h
  obtain (rfl | ⟨p, _, hp⟩) | rfl := h
  · obtain _ | ⟨_ | _⟩ := part <;> decide
  · exact newline_not_mem_defines hp
  · decide

/-- The title above the guard. -/
def preamble : String := "This file is automatically generated by the address map generator"

def opening : List String :=
  ["/* " ++ preamble ++ " */", "#ifndef " ++ guardName, "#define " ++ guardName, ""]

def closing : List String := ["#endif /* " ++ guardName ++ " */"]

theorem lines_eq (l : Layout) :
    lines l =
      opening ++ (sectionLines l Part.modeBit.title (· == .isAbsolute) ++
        (sectionLines l (Part.ofMode .absolute).title Field.isAbsoluteOnly ++
          (sectionLines l (Part.ofMode .relative).title Field.isRelativeOnly ++ closing))) := by
  simp only [lines, List.append_assoc]
  rfl

theorem newline_not_mem_lines {l : Layout} {line : String} (h : line ∈ lines l) :
    '\n' ∉ line.toList := by
  have hopening : ∀ line ∈ opening, '\n' ∉ line.toList := by decide
  have hclosing : ∀ line ∈ closing, '\n' ∉ line.toList := by decide
  rw [lines_eq] at h
  simp only [List.mem_append] at h
  obtain h | h | h | h | h := h
  · exact hopening line h
  · exact newline_not_mem_sectionLines h
  · exact newline_not_mem_sectionLines h
  · exact newline_not_mem_sectionLines h
  · exact hclosing line h

/-- The macros of a header: the guard, then those of every field under the title of its part. -/
theorem macrosOf_text (l : Layout) :
    macrosOf (text l) =
      ⟨preamble, guardName, ""⟩ ::
        Field.all.flatMap fun f => macrosFor (partOf f).title l f := by
  have hopening (rest : List (List Char)) :
      macrosBelow "" (opening.map String.toList ++ rest) =
        ⟨preamble, guardName, ""⟩ :: macrosBelow preamble rest := rfl
  have hclosing (heading : String) :
      macrosBelow heading (closing.map String.toList ++ [[]]) = [] := rfl
  rw [macrosOf, text, joinLines, Text.lines_join fun _ => newline_not_mem_lines, lines_eq]
  simp only [List.map_append, List.append_assoc]
  rw [hopening, macrosBelow_sectionLines, macrosBelow_sectionLines, macrosBelow_sectionLines,
    hclosing]
  rfl

/-- The names that a header defines. -/
def macroNames : List String :=
  guardName :: Field.all.flatMap fun f => [f.name ++ "_HI", f.name ++ "_LO"]

theorem names_macrosOf (l : Layout) : (macrosOf (text l)).map Macro.name = macroNames := by
  rw [macrosOf_text, List.map_cons, List.map_flatMap]
  rfl

theorem nodup_names (l : Layout) : ((macrosOf (text l)).map Macro.name).Nodup := by
  rw [names_macrosOf]
  decide

/-! ## Their numbers -/

theorem unsignedLong?_literal {n : Nat} (h : n < UInt64.size) :
    unsignedLong? (literal n) = some (UInt64.ofNat n) := by
  have hnum := Toml.isNumeral_toDigits n
  have hliteral : (literal n).toList = Nat.toDigits 10 n ++ "ul".toList := by
    rw [literal, String.toList_append, Nat.toList_repr]
  have hdigits : (literal n).toList.takeWhile Char.isDigit = Nat.toDigits 10 n := by
    rw [hliteral, List.takeWhile_append_of_pos hnum.digits]
    exact List.append_nil _
  rw [unsignedLong?, hdigits, Nat.ofDigitChars_ten_toDigits]
  exact if_pos ⟨hliteral, hnum.ne_nil, hnum.leading, h⟩

theorem lo_and_bits_lt {t : Topology} {l : Layout} (h : Layout.Planned t l) (f : Field) :
    (l.field f).lo < 64 ∧ (l.field f).bits < 64 := by
  have hb := h.budget
  have hx := h.pxn
  have hp := h.pod
  have hc := h.core
  have hd := h.dramOffset
  have hl := h.l2spOffset
  cases f <;> simp only [Layout.field, Bitfield.bits, Bitfield.span] <;> omega

variable {f : Bitfield}

/-- The width of a field by its ends. That of an empty one wraps twice. -/
theorem toNat_width (f : Bitfield) :
    (UInt64.ofNat f.hi - UInt64.ofNat f.lo + 1).toNat = f.bits := by
  have h1 := f.lo_le_top
  have h2 := f.top_pos
  have h3 := f.top_le
  simp only [UInt64.toNat_add, UInt64.toNat_sub, UInt64.toNat_ofNat', UInt64.toNat_one,
    Bitfield.hi, Bitfield.bits]
  omega

theorem ones_eq_mask (h : f.bits < 64) :
    (1 <<< (UInt64.ofNat f.hi - UInt64.ofNat f.lo + 1)) - 1 = f.mask := by
  have hp := Nat.two_pow_pos f.bits
  have hone : (1 <<< (UInt64.ofNat f.hi - UInt64.ofNat f.lo + 1) : UInt64).toNat = 2 ^ f.bits := by
    have hlt : 2 ^ f.bits < 2 ^ 64 := Nat.pow_lt_pow_right (by decide) h
    rw [UInt64.toNat_shiftLeft, toNat_width, Nat.mod_eq_of_lt h, UInt64.toNat_one,
      Nat.one_shiftLeft, Nat.mod_eq_of_lt hlt]
  apply UInt64.toNat_inj.mp
  rw [Word.toNat_sub_of_le (by rw [hone]; exact hp), hone, Bitfield.toNat_mask, UInt64.toNat_one]

theorem extract_eq_get (hlo : f.lo < 64) (hbits : f.bits < 64) (raw : UInt64) :
    extract (UInt64.ofNat f.hi) (UInt64.ofNat f.lo) raw = f.get raw := by
  rw [extract, ones_eq_mask hbits, Bitfield.get, Word.shiftRight, if_pos hlo]

theorem delimits (hlo : f.lo < 64) (hbits : f.bits < 64) :
    Delimits f (UInt64.ofNat f.hi) (UInt64.ofNat f.lo) where
  start := by
    rw [UInt64.lt_iff_toNat_lt, UInt64.toNat_ofNat']
    exact Nat.lt_of_le_of_lt (Nat.mod_le _ _) hlo
  width := by
    rw [UInt64.lt_iff_toNat_lt, toNat_width]
    exact hbits
  reads := extract_eq_get hlo hbits
  empty := by
    have h1 := f.lo_le_top
    have h2 := f.top_pos
    have h3 := f.top_le
    rw [Bitfield.isEmpty, beq_iff_eq, ← UInt64.toNat_inj]
    simp only [UInt64.toNat_sub, UInt64.toNat_ofNat', UInt64.toNat_one, Bitfield.hi]
    omega
  zero := by
    simp only [extract_eq_get hlo hbits]
    exact Bitfield.isEmpty_iff_get_eq_zero

/-- The PXN field of a machine with one PXN. -/
example : extract 60 61 Word.largest = 0 := by decide

theorem definedAs {l : Layout} {f : Field} {suffix : String} {n : Nat} (hn : n < UInt64.size)
    (h : ⟨(partOf f).title, f.name ++ suffix, literal n⟩ ∈ macrosFor (partOf f).title l f) :
    DefinedAs (macrosOf (text l)) (partOf f) (f.name ++ suffix) (UInt64.ofNat n) := by
  have hmem : ⟨(partOf f).title, f.name ++ suffix, literal n⟩ ∈ macrosOf (text l) := by
    rw [macrosOf_text]
    exact List.mem_cons_of_mem _ (List.mem_flatMap.mpr ⟨f, by cases f <;> decide, h⟩)
  exact ⟨literal n, filter_eq_singleton (nodup_names l) hmem rfl, unsignedLong?_literal hn⟩

/-- Every field has one macro for each end, under the title of its part, and nothing else but the
guard is defined; what the two numbers delimit in a word is what the map reads. -/
theorem macros_delimit_fields {ε : Type} (m : AddressMap) :
    ∃ text, (render m : Logged ε String).outcome = .ok text ∧
      (macrosOf text).map Macro.name = macroNames ∧
      (macrosOf text).filter (·.name == guardName) = [⟨preamble, guardName, ""⟩] ∧
      ∀ f, ∃ part hi lo, (∀ other : Part, other.Covers f ↔ other = part) ∧
        DefinedAs (macrosOf text) part (f.name ++ "_HI") hi ∧
        DefinedAs (macrosOf text) part (f.name ++ "_LO") lo ∧
        Delimits (m.layout.field f) hi lo := by
  have hguard : ⟨preamble, guardName, ""⟩ ∈ macrosOf (text m.layout) := by
    rw [macrosOf_text]
    exact List.mem_cons_self
  refine ⟨text m.layout, Logged.outcome_noting _ _, names_macrosOf m.layout,
    filter_eq_singleton (nodup_names m.layout) hguard rfl, fun f => ?_⟩
  obtain ⟨hlo, hbits⟩ := lo_and_bits_lt m.shape f
  have hhi : (m.layout.field f).hi < 64 := by
    have htop := (m.layout.field f).top_le
    have hpos := (m.layout.field f).top_pos
    rw [Bitfield.hi]
    omega
  have hword : 64 < UInt64.size := by decide
  exact ⟨partOf f, _, _, fun other => covers_iff other f,
    definedAs (hhi.trans hword) List.mem_cons_self,
    definedAs (hlo.trans hword) (List.mem_cons_of_mem _ List.mem_cons_self),
    delimits hlo hbits⟩

end TieredMemory.Firmware.Header
