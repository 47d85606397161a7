import TieredMemory.Proofs.Json.Strings
import TieredMemory.Proofs.Toml.Numbers
import TieredMemory.Proofs.Word.Digits

/-!
# Reading compact texts back

A value is read back from its compact text. What stands behind a value, a comma or a closing bracket,
goes on with no number, so each reader stops where the writer did. Every step of the reader takes a
character or ends a value, so twice the length of the text is enough steps.
-/
set_option autoImplicit false

namespace TieredMemory.Json

open Toml (IsNumeral)

variable {v : Value} {ds rest : List Char}

/-! ## Numbers -/

/-- What can stand behind a value: the end, a comma or a closing bracket. -/
def Closes (rest : List Char) : Prop := ∀ c ∈ rest.head?, c = ',' ∨ c = ']' ∨ c = '\x7d'

theorem readDigits_digits (hd : ∀ c ∈ ds, c.isDigit = true) (hne : ds ≠ []) (hr : Closes rest) :
    readDigits (ds ++ rest) = some (ds, rest) := by
  have hhead : ∀ c ∈ rest.head?, c.isDigit = false := by
    intro c hc
    rcases hr c hc with rfl | rfl | rfl <;> rfl
  have htake := takeWhile_append_of_head hd hhead
  have hdrop := dropWhile_append_of_head hd hhead
  obtain ⟨d, t, rfl⟩ := List.exists_cons_of_ne_nil hne
  rw [readDigits, htake, hdrop]

theorem readWhole_numeral (h : IsNumeral ds) (hr : Closes rest) :
    readWhole (ds ++ rest) = some (ds, rest) := by
  obtain ⟨d, t, rfl, hd⟩ := h.exists_digit
  by_cases h0 : d = '0'
  · subst h0
    obtain rfl : t = [] := by simpa using h.leading rfl
    rfl
  · rw [List.cons_append, readWhole, ← List.cons_append, readDigits_digits h.digits h.ne_nil hr]
    simpa using h0

theorem readFraction_of_closes (hr : Closes rest) : readFraction rest = some ([], rest) := by
  cases rest with
  | nil => rfl
  | cons c rest => rcases hr c rfl with rfl | rfl | rfl <;> rfl

theorem readExponent_of_closes (hr : Closes rest) : readExponent rest = some ([], rest) := by
  cases rest with
  | nil => rfl
  | cons c rest => rcases hr c rfl with rfl | rfl | rfl <;> rfl

theorem readNumber_numeral (h : IsNumeral ds) (hr : Closes rest) :
    readNumber (ds ++ rest) = some (ds, rest) := by
  obtain ⟨d, t, rfl, hd⟩ := h.exists_digit
  have hwhole := readWhole_numeral h hr
  rw [List.cons_append] at hwhole ⊢
  have hsign : d ≠ '-' := by
    rintro rfl
    cases hd
  simp [readNumber, hsign, hwhole, readFraction_of_closes hr, readExponent_of_closes hr]

/-! ## Steps of the reader -/

variable {c : Char} {fuel : Nat} {cs after : List Char}

theorem skipBlanks_cons (h : isBlank c = false) : skipBlanks (c :: cs) = c :: cs := by
  rw [skipBlanks, List.dropWhile_cons, h]
  rfl

theorem isBlank_of_isDigit (h : c.isDigit = true) : isBlank c = false := by
  by_contra hb
  simp only [isBlank, Bool.not_eq_false, Bool.or_eq_true, beq_iff_eq] at hb
  rcases hb with ((rfl | rfl) | rfl) | rfl <;> cases h

theorem readValue_numeral (h : IsNumeral ds) (hr : Closes rest) :
    readValue (fuel + 1) (ds ++ rest) = some (.number ds, rest) := by
  have hread := readNumber_numeral h hr
  obtain ⟨d, t, rfl, hd⟩ := h.exists_digit
  rw [List.cons_append] at hread ⊢
  unfold readValue
  rw [skipBlanks_cons (isBlank_of_isDigit hd)]
  -- no phrase but a number starts with a digit
  split <;> try (next heq => obtain rfl := (List.cons.inj heq).1; cases hd)
  rw [hread]
  rfl

theorem readValue_quote (l : Literal) :
    readValue (fuel + 1) (quote l ++ rest) = some (.string l, rest) := by
  obtain ⟨body, hquote, hread⟩ := exists_quote l rest
  rw [hquote, readValue, skipBlanks_cons rfl]
  simp [hread]

/-- An array with items is read by its items. -/
theorem readValue_items (hc : isBlank c = false) (hb : c ≠ ']') :
    readValue (fuel + 1) ('[' :: c :: cs) =
      (readItems fuel (c :: cs)).map fun (items, after) => (.array items, after) := by
  rw [readValue, skipBlanks_cons rfl]
  simp only [skipBlanks_cons hc]
  split
  · next heq => exact absurd (List.cons.inj heq).1 hb
  · rfl

theorem readValue_members :
    readValue (fuel + 1) ('\x7b' :: '"' :: cs) =
      (readMembers fuel ('"' :: cs)).map fun (members, after) => (.object members, after) := by
  rw [readValue, skipBlanks_cons rfl]
  have hquote : skipBlanks ('"' :: cs) = '"' :: cs := skipBlanks_cons rfl
  simp only [hquote]
  rfl

theorem readItems_last {item : Value} (h : readValue fuel cs = some (item, ']' :: after)) :
    readItems (fuel + 1) cs = some ([item], after) := by
  simp [readItems, h, skipBlanks_cons (c := ']') rfl]

theorem readItems_more {item : Value} {items : List Value} {more : List Char}
    (h : readValue fuel cs = some (item, ',' :: more))
    (hmore : readItems fuel more = some (items, after)) :
    readItems (fuel + 1) cs = some (item :: items, after) := by
  simp [readItems, h, skipBlanks_cons (c := ',') rfl, hmore]

section Members

variable {key : Literal} {value : Value} {text : List Char}

theorem readMembers_last (h : readValue fuel text = some (value, '\x7d' :: after)) :
    readMembers (fuel + 1) (quote key ++ ':' :: text) = some ([(key, value)], after) := by
  obtain ⟨body, hquote, hread⟩ := exists_quote key (':' :: text)
  simp [readMembers, hquote, skipBlanks_cons (c := '"') rfl, hread,
    skipBlanks_cons (c := ':') rfl, h, skipBlanks_cons (c := '\x7d') rfl]

theorem readMembers_more {members : List (Literal × Value)} {more : List Char}
    (h : readValue fuel text = some (value, ',' :: more))
    (hmore : readMembers fuel more = some (members, after)) :
    readMembers (fuel + 1) (quote key ++ ':' :: text) =
      some ((key, value) :: members, after) := by
  obtain ⟨body, hquote, hread⟩ := exists_quote key (':' :: text)
  simp [readMembers, hquote, skipBlanks_cons (c := '"') rfl, hread,
    skipBlanks_cons (c := ':') rfl, h, skipBlanks_cons (c := ',') rfl, hmore]

end Members

/-! ## Whole values -/

namespace Value

/-- The values that a compact text can tell: each number in it is written as a decimal numeral. -/
inductive Plain : Value → Prop where
  | null : Plain .null
  | bool (b : Bool) : Plain (.bool b)
  | number {numeral : List Char} (h : IsNumeral numeral) : Plain (.number numeral)
  | string (l : Literal) : Plain (.string l)
  | array {items : List Value} (h : ∀ v ∈ items, Plain v) : Plain (.array items)
  | object {members : List (Literal × Value)} (h : ∀ m ∈ members, Plain m.2) :
    Plain (.object members)

/-- The reader takes the text of the value off the front, in steps that its length bounds. -/
def Reads (v : Value) : Prop := ∀ fuel rest, 2 * v.compactChars.length ≤ fuel → Closes rest →
  readValue fuel (v.compactChars ++ rest) = some (v, rest)

/-- A text of a value starts with a character that is no blank and closes nothing. -/
theorem Plain.exists_compactChars (h : v.Plain) :
    ∃ c cs, v.compactChars = c :: cs ∧ isBlank c = false ∧ c ≠ ']' := by
  cases h with
  | null => simp [compactChars, isBlank]
  | bool b => cases b <;> simp [compactChars, isBlank]
  | number h =>
    obtain ⟨d, t, rfl, hd⟩ := h.exists_digit
    refine ⟨d, t, rfl, isBlank_of_isDigit hd, ?_⟩
    rintro rfl
    cases hd
  | string l =>
    obtain ⟨body, hquote, _⟩ := exists_quote l []
    exact ⟨'"', body, by rw [compactChars, ← List.append_nil (quote l), hquote], rfl, by decide⟩
  | @array items h => cases items <;> simp [compactChars, isBlank]
  | @object members h => rcases members with _ | ⟨⟨key, value⟩, members⟩ <;>
      simp [compactChars, isBlank]

theorem closes_items (items : List Value) (rest : List Char) :
    Closes (compactItems items ++ rest) := by
  cases items <;> simp [compactItems, Closes]

theorem closes_members (members : List (Literal × Value)) (rest : List Char) :
    Closes (compactMembers members ++ rest) := by
  rcases members with _ | ⟨⟨key, value⟩, members⟩ <;> simp [compactMembers, Closes]

theorem readItems_compact {item : Value} {items : List Value} (hitem : item.Reads)
    (hitems : ∀ v ∈ items, v.Reads)
    (hfuel : 2 * (item.compactChars.length + (compactItems items).length) < fuel) :
    readItems fuel (item.compactChars ++ (compactItems items ++ rest)) =
      some (item :: items, rest) := by
  induction items generalizing item fuel with
  | nil =>
    obtain ⟨fuel, rfl⟩ := Nat.exists_eq_add_one_of_ne_zero (Nat.ne_zero_of_lt hfuel)
    have hread := hitem fuel (compactItems [] ++ rest) (by omega) (closes_items _ _)
    exact readItems_last hread
  | cons next items ih =>
    obtain ⟨fuel, rfl⟩ := Nat.exists_eq_add_one_of_ne_zero (Nat.ne_zero_of_lt hfuel)
    have hread := hitem fuel (compactItems (next :: items) ++ rest) (by omega) (closes_items _ _)
    simp only [compactItems, List.length_cons, List.length_append] at hfuel
    simp only [compactItems, List.cons_append, List.append_assoc] at hread ⊢
    exact readItems_more hread (ih (hitems next List.mem_cons_self)
      (fun v hv => hitems v (List.mem_cons_of_mem _ hv)) (by omega))

theorem readMembers_compact {key : Literal} {value : Value} {members : List (Literal × Value)}
    (hvalue : value.Reads) (hmembers : ∀ m ∈ members, m.2.Reads)
    (hfuel : 2 * (value.compactChars.length + (compactMembers members).length) < fuel) :
    readMembers fuel
        (quote key ++ ':' :: (value.compactChars ++ (compactMembers members ++ rest))) =
      some ((key, value) :: members, rest) := by
  induction members generalizing key value fuel with
  | nil =>
    obtain ⟨fuel, rfl⟩ := Nat.exists_eq_add_one_of_ne_zero (Nat.ne_zero_of_lt hfuel)
    have hread := hvalue fuel (compactMembers [] ++ rest) (by omega) (closes_members _ _)
    exact readMembers_last hread
  | cons next members ih =>
    obtain ⟨name, next⟩ := next
    obtain ⟨fuel, rfl⟩ := Nat.exists_eq_add_one_of_ne_zero (Nat.ne_zero_of_lt hfuel)
    have hread := hvalue fuel (compactMembers ((name, next) :: members) ++ rest) (by omega)
      (closes_members _ _)
    simp only [compactMembers, List.length_cons, List.length_append] at hfuel
    simp only [compactMembers, List.cons_append, List.append_assoc] at hread ⊢
    exact readMembers_more hread (ih (hmembers (name, next) List.mem_cons_self)
      (fun m hm => hmembers m (List.mem_cons_of_mem _ hm)) (by omega))

/-- A text that is not empty leaves room for one step. -/
theorem reads_of_step (hne : v.compactChars ≠ []) (h : ∀ fuel rest,
      2 * v.compactChars.length ≤ fuel + 1 → Closes rest →
        readValue (fuel + 1) (v.compactChars ++ rest) = some (v, rest)) : v.Reads := by
  intro fuel rest hfuel hr
  have hpos := List.length_pos_iff.mpr hne
  obtain ⟨fuel, rfl⟩ := Nat.exists_eq_add_one_of_ne_zero (n := fuel) (by omega)
  exact h fuel rest hfuel hr

theorem reads_array {items : List Value} (h : ∀ v ∈ items, v.Plain)
    (hreads : ∀ v ∈ items, v.Reads) : (array items).Reads := by
  cases items with
  | nil =>
    refine reads_of_step (by simp [compactChars]) fun fuel rest _ _ => ?_
    simp only [compactChars, List.cons_append, readValue]
    rfl
  | cons item items =>
    refine reads_of_step (by simp [compactChars]) fun fuel rest hfuel _ => ?_
    obtain ⟨c, cs, hchars, hblank, hne⟩ := (h item List.mem_cons_self).exists_compactChars
    simp only [compactChars, List.length_cons, List.length_append] at hfuel
    have hitems : ∀ v ∈ items, v.Reads := fun v hv => hreads v (List.mem_cons_of_mem _ hv)
    have hread : readItems fuel (item.compactChars ++ (compactItems items ++ rest)) = _ :=
      readItems_compact (hreads item List.mem_cons_self) hitems (by omega)
    simp only [compactChars, List.cons_append, List.append_assoc]
    rw [hchars] at hread ⊢
    rw [List.cons_append, readValue_items hblank hne, ← List.cons_append, hread]
    rfl

theorem reads_object {members : List (Literal × Value)} (hreads : ∀ m ∈ members, m.2.Reads) :
    (object members).Reads := by
  cases members with
  | nil =>
    refine reads_of_step (by simp [compactChars]) fun fuel rest _ _ => ?_
    simp only [compactChars, List.cons_append, readValue]
    rfl
  | cons member members =>
    obtain ⟨key, value⟩ := member
    refine reads_of_step (by simp [compactChars]) fun fuel rest hfuel _ => ?_
    simp only [compactChars, List.length_cons, List.length_append] at hfuel
    have hvalue : value.Reads := hreads (key, value) List.mem_cons_self
    have hmembers : ∀ m ∈ members, m.2.Reads := fun m hm => hreads m (List.mem_cons_of_mem _ hm)
    have hread : readMembers fuel
        (quote key ++ ':' :: (value.compactChars ++ (compactMembers members ++ rest))) = _ :=
      readMembers_compact hvalue hmembers (by omega)
    obtain ⟨body, hquote, _⟩ :=
      exists_quote key (':' :: (value.compactChars ++ (compactMembers members ++ rest)))
    simp only [compactChars, List.cons_append, List.append_assoc]
    rw [hquote] at hread ⊢
    rw [readValue_members, hread]
    rfl

theorem Plain.reads (h : v.Plain) : v.Reads := by
  induction h with
  | null =>
    refine reads_of_step (by simp [compactChars]) fun fuel rest _ _ => ?_
    simp [compactChars, readValue, skipBlanks_cons (c := 'n') rfl]
  | bool b =>
    refine reads_of_step (by cases b <;> simp [compactChars]) fun fuel rest _ _ => ?_
    cases b with
    | true => simp [compactChars, readValue, skipBlanks_cons (c := 't') rfl]
    | false => simp [compactChars, readValue, skipBlanks_cons (c := 'f') rfl]
  | number h => exact reads_of_step h.ne_nil fun fuel rest _ hr => readValue_numeral h hr
  | string l =>
    obtain ⟨c, cs, hchars, _⟩ := (Plain.string l).exists_compactChars
    exact reads_of_step (hchars ▸ List.cons_ne_nil c cs) fun fuel rest _ _ => readValue_quote l
  | array h ih => exact reads_array h ih
  | object h ih => exact reads_object ih

theorem read?_compact (h : v.Plain) : read? v.compact = some v := by
  have hread := h.reads (stepsFor v.compactChars) [] (by rw [stepsFor]; omega) (by simp [Closes])
  rw [List.append_nil] at hread
  simp [read?, compact, hread, skipBlanks]

end Value

end TieredMemory.Json
