import Mathlib.Order.MinMax
import TieredMemory.Toml.Counted

/-!
# Runs of one character

The longest run of a character in a text is at least `n` long exactly if `n` of it stand next to
each other somewhere. So the writer that counts in bytes fails at the texts with 256 equal quotes in
a row, and changes nothing else.
-/
set_option autoImplicit false

namespace TieredMemory.Toml

variable {c d : Char} {k n : Nat} {cs : List Char}

theorem longestRun_cons_self : longestRun c k (c :: cs) = longestRun c (k + 1) cs := by
  rw [longestRun, if_pos rfl]

theorem longestRun_cons_of_ne (h : d ≠ c) :
    longestRun c k (d :: cs) = max k (longestRun c 0 cs) := by
  rw [longestRun, if_neg h]

/-- Occurrences of one character do not reach across another one. -/
theorem replicate_infix_append_cons_iff {as bs : List Char} (h : d ≠ c) :
    List.replicate n c <:+: as ++ d :: bs ↔
      List.replicate n c <:+: as ∨ List.replicate n c <:+: bs := by
  have hd : d ∉ List.replicate n c := fun hm => h (List.eq_of_mem_replicate hm)
  rw [List.infix_append_iff, List.infix_cons_iff]
  constructor
  · rintro (has | (hpre | hbs) | ⟨l₁, l₂, heq, hsuf, hpre⟩)
    · exact Or.inl has
    · rcases List.prefix_cons_iff.mp hpre with hnil | ⟨t, ht, _⟩
      · rw [hnil]
        exact Or.inl (List.nil_infix)
      · rw [ht] at hd
        exact absurd List.mem_cons_self hd
    · exact Or.inr hbs
    · rcases List.prefix_cons_iff.mp hpre with hnil | ⟨t, ht, _⟩
      · rw [heq, hnil, List.append_nil]
        exact Or.inl hsuf.isInfix
      · rw [heq, ht] at hd
        exact absurd (List.mem_append_right _ List.mem_cons_self) hd
  · rintro (has | hbs)
    · exact Or.inl has
    · exact Or.inr (Or.inl (Or.inr hbs))

/-- The characters of a run that were seen before the text count as standing in front of it. -/
theorem le_longestRun_iff :
    n ≤ longestRun c k cs ↔ List.replicate n c <:+: List.replicate k c ++ cs := by
  induction cs generalizing k with
  | nil => simp [longestRun, List.infix_replicate_iff]
  | cons d cs ih =>
    by_cases h : d = c
    · subst h
      rw [longestRun_cons_self, ih, List.replicate_succ', List.append_assoc, List.singleton_append]
    · rw [longestRun_cons_of_ne h, le_max_iff, ih, replicate_infix_append_cons_iff h,
        List.replicate_zero, List.nil_append]
      simp [List.infix_replicate_iff]

/-- What was seen before can only make a run longer, and so can the first character. -/
theorem longestRun_le_cons : longestRun c 0 cs ≤ longestRun c k (d :: cs) := by
  rw [le_longestRun_iff]
  have h : List.replicate (longestRun c 0 cs) c <:+: cs := le_longestRun_iff.mp (Nat.le_refl _)
  exact h.trans ((List.suffix_cons d cs).trans (List.suffix_append _ _)).isInfix

/-! ## Counting in bytes -/

variable {s text : String}

/-- A run of equal quotes whose length is not a byte. -/
def HasOverlongRun (s : String) : Prop :=
  List.replicate 256 '"' <:+: s.toList ∨ List.replicate 256 '\'' <:+: s.toList

theorem longestCounted_lt_iff : longestCounted < longestRun c 0 cs ↔ List.replicate 256 c <:+: cs :=
  le_longestRun_iff

theorem countQuotes_of_overlong (h : HasOverlongRun s) : countQuotes s = .error .addition :=
  if_pos (h.imp longestCounted_lt_iff.mpr longestCounted_lt_iff.mpr)

theorem countQuotes_of_counted (h : ¬ HasOverlongRun s) : countQuotes s = .ok () :=
  if_neg fun hlong => h (hlong.imp longestCounted_lt_iff.mp longestCounted_lt_iff.mp)

/-- What the writer gives is the document, or its error; the fault takes the place of a text whose
string has an overlong run. -/
theorem counted_outcome {ε : Type} (s : String) (document : Except ε String) :
    (∀ e, counted s document = .error (.error e) ↔ document = .error e) ∧
      (∀ f, counted s document = .error (.fault f) ↔
        f = .addition ∧ (∃ text, document = .ok text) ∧ HasOverlongRun s) ∧
      ∀ text, counted s document = .ok text ↔ document = .ok text ∧ ¬ HasOverlongRun s := by
  cases document with
  | error e =>
    have h : counted s (.error e : Except ε String) = .error (.error e) := rfl
    simp [h]
  | ok text =>
    by_cases hlong : HasOverlongRun s
    · have h : counted s (.ok text : Except ε String) = .error (.fault .addition) := by
        rw [counted, countQuotes_of_overlong hlong]
        rfl
      simp [h, hlong, eq_comm]
    · have h : counted s (.ok text : Except ε String) = .ok text := by
        rw [counted, countQuotes_of_counted hlong]
        rfl
      simp [h, hlong]

end TieredMemory.Toml
