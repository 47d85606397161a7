import TieredMemory.Firmware.LinkerScript
import TieredMemory.Proofs.Text.Lines
import TieredMemory.Proofs.Word.Digits

/-!
# What a linker reads from the memory block

The block of a script has one line for each region. Reading the lines between its braces gives back
the regions that the script was written from, whatever words they start at and however long they
are, as long as their names and attributes end where a linker expects it.
-/
set_option autoImplicit false

namespace TieredMemory.Firmware.LinkerScript

/-! ## Reading a script -/

def isHexDigit (c : Char) : Bool := "0123456789abcdef".toList.contains c

/-- The word of a hexadecimal numeral with its mark in front. -/
def hexWord? (cs : List Char) : Option UInt64 := do
  let digits ← cs.dropPrefix? "0x".toList
  let value := Nat.ofDigits 16 (digits.map digitOf).reverse
  if digits ≠ [] ∧ digits.all isHexDigit = true ∧ value < UInt64.size then
    some (UInt64.ofNat value)
  else none

/-- The region of a line: its name, its attributes in parentheses, then where it starts and how many
bytes it has. -/
def region? (line : List Char) : Option MemoryRegion := do
  let afterName ← (line.dropWhile (· ≠ ' ')).dropPrefix? " (".toList
  let afterAttributes ← (afterName.dropWhile (· ≠ ')')).dropPrefix? ")".toList
  let numbers ← (afterAttributes.dropWhile (· = ' ')).dropPrefix? ": ORIGIN = ".toList
  let origin ← hexWord? (numbers.takeWhile (· ≠ ','))
  let afterOrigin ← (numbers.dropWhile (· ≠ ',')).dropPrefix? ", LENGTH = ".toList
  let length ← hexWord? afterOrigin
  return {
    name := String.ofList (line.takeWhile (· ≠ ' '))
    attributes := String.ofList (afterName.takeWhile (· ≠ ')'))
    origin := origin
    length := length }

/-- The lines between the braces of the memory block. -/
def blockLines? (ls : List (List Char)) : Option (List (List Char)) :=
  ((ls.dropWhile (· ≠ "MEMORY".toList)).dropPrefix? ["MEMORY".toList, "\x7b".toList]).map
    (·.takeWhile (· ≠ "\x7d".toList))

def regionsOf? (script : String) : Option (List MemoryRegion) := do
  let block ← blockLines? (Text.lines script)
  block.mapM region?

/-- Names and attributes that end where they are read to end, and within their line. -/
def MemoryRegion.Readable (r : MemoryRegion) : Prop :=
  (∀ c ∈ r.name.toList, c ≠ ' ' ∧ c ≠ '\n') ∧ ∀ c ∈ r.attributes.toList, c ≠ ')' ∧ c ≠ '\n'

theorem MemoryRegion.readable_iff {r : MemoryRegion} :
    r.Readable ↔ (r.name.toList.all (fun c => c != ' ' && c != '\n') &&
      r.attributes.toList.all (fun c => c != ')' && c != '\n')) = true := by
  simp [Readable]

instance (r : MemoryRegion) : Decidable r.Readable :=
  decidable_of_iff _ MemoryRegion.readable_iff.symm

/-! ## Numbers -/

theorem toList_shortAddress (w : UInt64) :
    ∃ digits, (shortAddress w).toList = "0x".toList ++ digits ∧ HasDigits 16 digits w.toNat := by
  refine ⟨_, ?_, hasDigits_padded (by decide) (8 - (Nat.toDigits 16 w.toNat).length) w.toNat⟩
  simp only [shortAddress, Word.hexPadded, String.toList_append, String.toList_ofList, List.leftpad]

theorem hexWord?_shortAddress (w : UInt64) : hexWord? (shortAddress w).toList = some w := by
  obtain ⟨digits, htext, hdigits⟩ := toList_shortAddress w
  have hne := hdigits.ne_nil
  have hdigit : ∀ d < 16, isHexDigit d.digitChar = true := by decide
  have hall : digits.all isHexDigit = true := by
    rw [List.all_eq_true]
    intro c hc
    obtain ⟨d, hd, rfl⟩ := hdigits.exists_digit_of_mem hc
    exact hdigit d hd
  have hvalue : Nat.ofDigits 16 (digits.map digitOf).reverse = w.toNat := by
    obtain ⟨values, _, hlt, rfl, hvalue⟩ := hdigits
    rw [map_digitOf hlt, hvalue]
  rw [hexWord?, htext, List.dropPrefix?_append_of_beq _ (beq_self_eq_true _)]
  simp only [Option.bind_eq_bind, Option.bind_some, hvalue]
  rw [if_pos ⟨hne, hall, w.toNat_lt⟩, UInt64.ofNat_toNat]

theorem isAlphanum_of_mem_shortAddress {w : UInt64} {c : Char} (h : c ∈ (shortAddress w).toList) :
    c.isAlphanum = true := by
  obtain ⟨digits, htext, hdigits⟩ := toList_shortAddress w
  have hmark : "0x".toList.all Char.isAlphanum = true := rfl
  rw [htext, List.mem_append] at h
  rcases h with h | h
  · exact List.all_eq_true.mp hmark c h
  · exact hdigits.isAlphanum_of_mem (by decide) h

/-! ## Lines of regions -/

variable {r : MemoryRegion} {rs : List MemoryRegion}

theorem toList_padRight (width : Nat) (s : String) :
    (Text.padRight width s).toList =
      s.toList ++ List.replicate (width - s.toList.length) ' ' := by
  simp only [Text.padRight, String.toList_ofList, List.rightpad]

theorem toList_regionLine (r : MemoryRegion) :
    ∃ blanks, (regionLine r).toList =
      r.name.toList ++ (" (".toList ++ (r.attributes.toList ++ (")".toList ++
        (List.replicate blanks ' ' ++ (": ORIGIN = ".toList ++ ((shortAddress r.origin).toList ++
          (", LENGTH = ".toList ++ (shortAddress r.length).toList))))))) := by
  have hline : regionLine r = Text.padRight 16 (r.name ++ " (" ++ r.attributes ++ ")") ++
      " : ORIGIN = " ++ shortAddress r.origin ++ ", LENGTH = " ++ shortAddress r.length := rfl
  refine ⟨16 - (r.name ++ " (" ++ r.attributes ++ ")").toList.length + 1, ?_⟩
  rw [hline, List.replicate_succ']
  simp only [String.toList_append, toList_padRight, List.append_assoc]
  rfl

theorem dropPrefix?_append {α : Type} [BEq α] [LawfulBEq α] (mark rest : List α) :
    (mark ++ rest).dropPrefix? mark = some rest :=
  List.dropPrefix?_append_of_beq rest (beq_self_eq_true mark)

/-- A part of a line ends at the mark behind it, whose first character it does not have. -/
theorem part_of_line (stop : Char) (mark : List Char) {part : List Char}
    (hmark : mark.head? = some stop) (hpart : ∀ c ∈ part, c ≠ stop) (rest : List Char) :
    (part ++ (mark ++ rest)).takeWhile (· ≠ stop) = part ∧
      ((part ++ (mark ++ rest)).dropWhile (· ≠ stop)).dropPrefix? mark = some rest := by
  have hkept : ∀ c ∈ part, decide (c ≠ stop) = true := fun c hc => decide_eq_true (hpart c hc)
  have hstop : ∀ c ∈ (mark ++ rest).head?, decide (c ≠ stop) = false := by
    simp [List.head?_append, hmark]
  rw [takeWhile_append_of_head hkept hstop, dropWhile_append_of_head hkept hstop]
  exact ⟨rfl, dropPrefix?_append mark rest⟩

theorem region?_regionLine (h : r.Readable) : region? (regionLine r).toList = some r := by
  obtain ⟨blanks, hline⟩ := toList_regionLine r
  have hnoComma : ∀ c ∈ (shortAddress r.origin).toList, c ≠ ',' := by
    rintro c hc rfl
    exact absurd (isAlphanum_of_mem_shortAddress hc) (by decide)
  have hblanks (rest : List Char) :
      ((List.replicate blanks ' ' ++ (": ORIGIN = ".toList ++ rest)).dropWhile (· = ' ')) =
        ": ORIGIN = ".toList ++ rest :=
    dropWhile_append_of_head (fun c hc => decide_eq_true (List.eq_of_mem_replicate hc)) (by simp)
  have hname := part_of_line ' ' " (".toList rfl fun c hc => (h.1 c hc).1
  have hattributes := part_of_line ')' ")".toList rfl fun c hc => (h.2 c hc).1
  have horigin := part_of_line ',' ", LENGTH = ".toList rfl hnoComma
  rw [hline, region?]
  simp only [hname, hattributes, hblanks, horigin, dropPrefix?_append, hexWord?_shortAddress,
    Option.bind_eq_bind, Option.bind_some, String.ofList_toList]
  rfl

/-! ## The block of a script -/

theorem newline_not_mem_shortAddress (w : UInt64) : '\n' ∉ (shortAddress w).toList := fun hc =>
  absurd (isAlphanum_of_mem_shortAddress hc) (by decide)

theorem newline_not_mem_regionLine (h : r.Readable) : '\n' ∉ (regionLine r).toList := by
  obtain ⟨blanks, hline⟩ := toList_regionLine r
  have hname : '\n' ∉ r.name.toList := fun hc => (h.1 _ hc).2 rfl
  have hattributes : '\n' ∉ r.attributes.toList := fun hc => (h.2 _ hc).2 rfl
  simp [hline, hname, hattributes, newline_not_mem_shortAddress]

theorem newline_not_mem_lines (h : ∀ r ∈ rs, r.Readable) {line : String} (hline : line ∈ lines rs) :
    '\n' ∉ line.toList := by
  have hopening : ∀ line ∈ ["MEMORY", "\x7b"], '\n' ∉ line.toList := by decide
  have hbetween : ∀ line ∈ ["\x7d", "", "SECTIONS", "\x7b"], '\n' ∉ line.toList := by decide
  have hsections : ∀ line ∈ sections.flatMap sectionLines, '\n' ∉ line.toList := by decide +kernel
  have hclosing : ∀ line ∈ ["_end = .;", "end = .;", "_edata = .;", "ENTRY(_start)", "\x7d"],
      '\n' ∉ line.toList := by decide
  simp only [lines, List.mem_append] at hline
  rcases hline with (((hline | hline) | hline) | hline) | hline
  · exact hopening line hline
  · obtain ⟨r, hr, rfl⟩ := List.mem_map.mp hline
    exact newline_not_mem_regionLine (h r hr)
  · exact hbetween line hline
  · exact hsections line hline
  · rcases List.mem_cons.mp hline with rfl | hline
    · simp [newline_not_mem_shortAddress]
    · exact hclosing line hline

theorem blockLines?_lines (h : ∀ r ∈ rs, r.Readable) :
    blockLines? ((lines rs).map String.toList ++ [[]]) =
      some (rs.map fun r => (regionLine r).toList) := by
  have hline : ∀ line ∈ rs.map (fun r => (regionLine r).toList),
      decide (line ≠ "\x7d".toList) = true := by
    intro line hline
    obtain ⟨r, hr, rfl⟩ := List.mem_map.mp hline
    refine decide_eq_true fun heq => ?_
    -- the brace that closes the block is no region
    have hnone : region? "\x7d".toList = none := rfl
    rw [← heq, region?_regionLine (h r hr)] at hnone
    cases hnone
  obtain ⟨rest, hrest⟩ : ∃ rest, (lines rs).map String.toList ++ [[]] =
      ["MEMORY".toList, "\x7b".toList] ++
        (rs.map (fun r => (regionLine r).toList) ++ ("\x7d".toList :: rest)) := by
    simp only [lines, List.map_append, List.map_map, List.append_assoc]
    exact ⟨_, rfl⟩
  rw [hrest, blockLines?, List.cons_append, List.dropWhile_cons_of_neg (by simp),
    ← List.cons_append, dropPrefix?_append, Option.map_some,
    takeWhile_append_of_head hline (by simp)]

theorem mapM_region? (h : ∀ r ∈ rs, r.Readable) :
    (rs.map fun r => (regionLine r).toList).mapM region? = some rs := by
  induction rs with
  | nil => rfl
  | cons r rs ih =>
    obtain ⟨hr, hrs⟩ := List.forall_mem_cons.mp h
    rw [List.map_cons, List.mapM_cons, region?_regionLine hr, ih hrs]
    rfl

/-- A script says the regions that it was written from. -/
theorem regionsOf?_text (h : ∀ r ∈ rs, r.Readable) : regionsOf? (text rs) = some rs := by
  rw [regionsOf?, text, Text.lines_join fun _ => newline_not_mem_lines h, blockLines?_lines h]
  exact mapM_region? h

end TieredMemory.Firmware.LinkerScript
