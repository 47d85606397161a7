import TieredMemory.Machine.Toml
import TieredMemory.Proofs.Lists
import TieredMemory.Proofs.Toml.Numbers
import TieredMemory.Proofs.Toml.Strings

/-!
# Reading written lines back

A line has a key without quotes and a value, or is the header of a table. A text with more lines
behind it is read as its own lines and then these.
-/
set_option autoImplicit false

namespace TieredMemory.Toml

variable {c : Char} {key : String} {value : Value} {cs rest after text written : List Char}
  {lines : List Line}

/-! ## Values and keys -/

/-- A text that stands for a value at the end of a line. -/
structure Says (written : List Char) (value : Value) : Prop where
  starts : ∃ d t, written = d :: t ∧ isBlank d = false
  read : ∀ fuel depth rest,
    readValue (fuel + 1) depth (written ++ '\n' :: rest) = some (value, '\n' :: rest)

theorem says_number {n : Nat} (h : n < integerBound) : Says (Nat.toDigits 10 n) (.integer n) := by
  obtain ⟨d, ds, hds, hd⟩ := (isNumeral_toDigits n).exists_digit
  refine ⟨⟨d, ds, hds, ?_⟩, fun fuel depth rest => ?_⟩
  · unfold isBlank
    simp only [Bool.or_eq_false_iff, beq_eq_false_iff_ne]
    constructor <;> rintro rfl <;> simp at hd
  · have hread : readNumber (Nat.toDigits 10 n ++ '\n' :: rest) = some (.integer n, '\n' :: rest) :=
      readNumber_toDigits h
    rw [hds, List.cons_append] at hread ⊢
    unfold readValue
    split <;> simp_all

theorem says_text {form : StringForm} (h : form.Admits cs) :
    Says (quoteAs form cs) (.string (String.ofList cs)) where
  starts := by cases form <;> exact ⟨_, _, rfl, rfl⟩
  read fuel depth rest := by
    have hread : readString (quoteAs form cs ++ '\n' :: rest) = some (cs, '\n' :: rest) :=
      readString_quoteAs h (by simp) (by simp)
    cases form <;> simp only [quoteAs, List.cons_append] at hread ⊢ <;>
      simp only [readValue, hread, Option.map_some]

/-- Every text is written in a form that is read back. -/
theorem says_quote (s : String) : Says (quote s) (.string s) := by
  have hsays := says_text (StringForm.admits_choose s.toList)
  rwa [String.ofList_toList] at hsays

/-- A key that needs no quotes. -/
def IsBare (key : String) : Prop := key.toList ≠ [] ∧ ∀ c ∈ key.toList, isBareKeyChar c = true

theorem isBare_iff :
    IsBare key ↔ (!key.toList.isEmpty && key.toList.all isBareKeyChar) = true := by
  simp [IsBare]

instance : Decidable (IsBare key) := decidable_of_iff _ isBare_iff.symm

theorem IsBare.exists_char (hk : IsBare key) :
    ∃ d t, key.toList = d :: t ∧ isBareKeyChar d = true := by
  obtain ⟨d, t, hd⟩ := List.exists_cons_of_ne_nil hk.1
  exact ⟨d, t, hd, hk.2 d (hd ▸ List.mem_cons_self)⟩

theorem skipBlanks_bare (hk : IsBare key) :
    skipBlanks (key.toList ++ after) = key.toList ++ after := by
  obtain ⟨d, t, ht, hd⟩ := hk.exists_char
  have hblank : isBlank d = false := by
    unfold isBlank
    simp only [Bool.or_eq_false_iff, beq_eq_false_iff_ne]
    constructor <;> rintro rfl <;> revert hd <;> decide
  rw [ht, List.cons_append, skipBlanks, List.dropWhile_cons, hblank]
  rfl

theorem readKeyPart_bare (hk : IsBare key) (hend : isBareKeyChar c = false) :
    readKeyPart (key.toList ++ c :: after) = some (key, c :: after) := by
  have hhead : ∀ d ∈ (c :: after).head?, isBareKeyChar d = false := by simpa using hend
  have htake := takeWhile_append_of_head hk.2 hhead
  have hdrop := dropWhile_append_of_head hk.2 hhead
  obtain ⟨d, t, ht, hd⟩ := hk.exists_char
  have hkey : String.ofList (d :: t) = key := by rw [← ht, String.ofList_toList]
  rw [ht, List.cons_append] at htake hdrop ⊢
  unfold readKeyPart
  split
  · next heq =>
    cases heq
    cases hd
  · next heq =>
    cases heq
    cases hd
  · rw [htake, hdrop, ← hkey]

/-- A bare key has one part; what ends it, blanks apart, is no point. -/
theorem readKey_bare {mark : Char} (hk : IsBare key) (hend : isBareKeyChar c = false)
    (hskip : skipBlanks (c :: rest) = mark :: after) (hdot : mark ≠ '.') :
    readKey (key.toList ++ c :: rest) = some ([], key, mark :: after) := by
  have hparts : ∀ fuel, readKeyParts (fuel + 1) (key.toList ++ c :: rest) =
      some ([key], mark :: after) := by
    intro fuel
    rw [readKeyParts, skipBlanks_bare hk, readKeyPart_bare hk hend]
    simp only [Option.bind_eq_bind, Option.bind_some, hskip]
    split
    · next heq => exact absurd (List.cons.inj heq).1 hdot
    · rfl
  rw [readKey, show nestingLimit - 1 = 78 + 1 from rfl, hparts]
  rfl

/-! ## Lines -/

/-- A text and its lines. -/
def Reads (cs : List Char) (lines : List Line) : Prop :=
  ∀ fuel, cs.length < fuel → readLines fuel cs = some lines

theorem reads_nil : Reads [] [] := fun fuel h => by
  cases fuel with
  | zero => exact absurd h (Nat.not_lt_zero _)
  | succ fuel => rfl

theorem readAssignment_line (fuel : Nat) (cs : List Char) (hk : IsBare key)
    (hv : Says written value) :
    readAssignment (fuel + 1) (key.toList ++ " = ".toList ++ written ++ '\n' :: cs) =
      some (.assignment [] key value, '\n' :: cs) := by
  obtain ⟨d, t, hd, hblank⟩ := hv.starts
  have hkey : readKey (key.toList ++ ' ' :: ('=' :: ' ' :: (written ++ '\n' :: cs))) =
      some ([], key, '=' :: ' ' :: (written ++ '\n' :: cs)) :=
    readKey_bare hk (by decide) rfl (by decide)
  have hskip : skipBlanks (' ' :: (written ++ '\n' :: cs)) = written ++ '\n' :: cs := by
    rw [hd, List.cons_append, skipBlanks, List.dropWhile_cons_of_pos (by decide),
      List.dropWhile_cons_of_neg (by simp [hblank])]
  have htext : key.toList ++ " = ".toList ++ written ++ '\n' :: cs =
      key.toList ++ ' ' :: ('=' :: ' ' :: (written ++ '\n' :: cs)) := by simp
  rw [readAssignment, htext, hkey]
  simp [expect, hskip, hv.read]

theorem readHeader_line (hk : IsBare key) :
    readHeader ('[' :: (key.toList ++ ']' :: '\n' :: cs)) =
      some (.tableHeader [] key, '\n' :: cs) := by
  have hkey : readKey (key.toList ++ ']' :: '\n' :: cs) = some ([], key, ']' :: '\n' :: cs) :=
    readKey_bare hk (by decide) rfl (by decide)
  obtain ⟨d, t, ht, hd⟩ := hk.exists_char
  rw [ht, List.cons_append] at hkey ⊢
  unfold readHeader
  split
  · next heq =>
    cases heq
    cases hd
  · next heq =>
    cases heq
    simp [hkey, expect]
  · next hne => exact absurd rfl (hne _)

theorem readLineRest_end : readLineRest ('\n' :: cs) = some cs := rfl

theorem readLines_of_assignment {fuel : Nat} {line : Line} (hk : IsBare key)
    (hline : readAssignment fuel (key.toList ++ after) = some (line, '\n' :: cs))
    (hrest : readLines fuel cs = some lines) :
    readLines (fuel + 1) (key.toList ++ after) = some (line :: lines) := by
  obtain ⟨d, t, ht, hd⟩ := hk.exists_char
  unfold readLines
  rw [skipBlanks_bare hk]
  rw [ht, List.cons_append] at hline ⊢
  -- A bare key starts neither a comment nor a header, and no line ends before it.
  split
  · next heq => cases heq
  iterate 4
    · next heq =>
      cases heq
      cases hd
  · simp [hline, readLineRest_end, hrest]

/-- A text that puts lines before those of the text that follows. -/
def Prepends (text : List Char) (lines : List Line) : Prop :=
  ∀ cs more, Reads cs more → Reads (text ++ cs) (lines ++ more)

theorem Prepends.append {text' : List Char} {lines' : List Line} (h : Prepends text lines)
    (h' : Prepends text' lines') : Prepends (text ++ text') (lines ++ lines') := by
  intro cs more hr
  rw [List.append_assoc, List.append_assoc]
  exact h _ _ (h' _ _ hr)

theorem Prepends.reads (h : Prepends text lines) : Reads text lines := by
  simpa using h [] [] reads_nil

theorem prepends_assignment (hk : IsBare key) (hv : Says written value) :
    Prepends (key.toList ++ " = ".toList ++ written ++ ['\n']) [.assignment [] key value] := by
  intro cs more h fuel hfuel
  simp only [List.length_append, List.length_cons] at hfuel
  -- One step for the line and at least one for its value.
  obtain ⟨fuel, rfl⟩ : ∃ n, fuel = n + 2 := ⟨fuel - 2, by omega⟩
  have hline := readAssignment_line fuel cs hk hv
  rw [List.append_assoc _ ['\n'], List.singleton_append]
  rw [List.append_assoc, List.append_assoc] at hline ⊢
  exact readLines_of_assignment hk hline (h _ (by omega))

theorem prepends_header (hk : IsBare key) :
    Prepends (Machine.tomlHeader key) [.tableHeader [] key] := by
  intro cs more h fuel hfuel
  simp only [Machine.tomlHeader, List.length_append, List.length_cons] at hfuel
  -- One step for the empty line and one for the header.
  obtain ⟨fuel, rfl⟩ : ∃ n, fuel = n + 2 := ⟨fuel - 2, by omega⟩
  have hrest := h fuel (by omega)
  have htext : Machine.tomlHeader key ++ cs = '\n' :: '[' :: (key.toList ++ ']' :: '\n' :: cs) := by
    simp [Machine.tomlHeader]
  have hblanks : ∀ x rest, isBlank x = false → skipBlanks (x :: rest) = x :: rest :=
    fun x rest hx => List.dropWhile_cons_of_neg (by simp [hx])
  rw [htext]
  simp [readLines, hblanks, isBlank, readHeader_line hk, readLineRest_end, hrest]

theorem read?_of_reads (h : Reads cs lines) (hmark : cs.head? ≠ some byteOrderMark) :
    read? (String.ofList cs) = assemble? lines := by
  have hskip : skipMark cs = cs := by
    unfold skipMark
    split
    · next c rest =>
      rw [if_neg fun heq => hmark (by rw [heq]; rfl)]
    · rfl
  have hfuel : cs.length < stepsFor cs := by
    unfold stepsFor
    omega
  rw [read?, String.toList_ofList, hskip, h _ hfuel]
  rfl

end TieredMemory.Toml
