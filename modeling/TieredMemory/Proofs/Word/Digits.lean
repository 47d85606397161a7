import Mathlib.Data.Nat.Digits.Defs
import TieredMemory.Proofs.Lists
import TieredMemory.Word

/-!
# Numbers within texts

A number is written as the characters of its digits, highest first, and no other number is written
the same, with or without zeros in front. Behind it stands neither a digit nor a letter, so a text
that starts with a number tells which one it is and what follows, also if the number is one that may
be left out.
-/
set_option autoImplicit false

namespace TieredMemory

variable {b : Nat} {x y : List Char}

/-! ## Digits -/

/-- The characters are digits of the base, at least one, highest first, and `n` is their value. -/
def HasDigits (b : Nat) (cs : List Char) (n : Nat) : Prop :=
  ∃ values : List Nat, values ≠ [] ∧ (∀ d ∈ values, d < b) ∧ cs = values.map Nat.digitChar ∧
    Nat.ofDigits b values.reverse = n

theorem hasDigits_toDigits (hb : 1 < b) (n : Nat) : HasDigits b (Nat.toDigits b n) n := by
  induction n using Nat.base_induction b hb with
  | single m hm => exact ⟨[m], by simp, by simpa using hm, Nat.toDigits_of_lt_base hm, by simp⟩
  | digit m k hk hm ih =>
    obtain ⟨values, _, hlt, hchars, hvalue⟩ := ih
    refine ⟨values ++ [k], by simp, ?_, ?_, ?_⟩
    · exact List.forall_mem_append.mpr ⟨hlt, by simpa using hk⟩
    · rw [← Nat.toDigits_append_toDigits hb hm hk, hchars, Nat.toDigits_of_lt_base hk,
        List.map_append, List.map_singleton]
    · rw [List.reverse_append, List.reverse_singleton, List.singleton_append, Nat.ofDigits_cons,
        hvalue]
      exact Nat.add_comm k _

/-- Zeros in front do not change the value. -/
theorem hasDigits_padded (hb : 1 < b) (k n : Nat) :
    HasDigits b (List.replicate k '0' ++ Nat.toDigits b n) n := by
  obtain ⟨values, hne, hlt, hchars, hvalue⟩ := hasDigits_toDigits hb n
  refine ⟨List.replicate k 0 ++ values, by simp [hne], ?_, ?_, ?_⟩
  · refine List.forall_mem_append.mpr ⟨fun d hd => ?_, hlt⟩
    rw [List.eq_of_mem_replicate hd]
    exact Nat.lt_trans Nat.zero_lt_one hb
  · rw [hchars, List.map_append, List.map_replicate]
    rfl
  · rw [List.reverse_append, List.reverse_replicate, Nat.ofDigits_append_replicate_zero, hvalue]

/-- The digit that a character stands for; letters are in lower case. -/
def digitOf (c : Char) : Nat := if c.isDigit then c.toNat - 48 else c.toNat - 87

theorem map_digitOf {values : List Nat} (h : ∀ d ∈ values, d < 16) :
    (values.map Nat.digitChar).map digitOf = values := by
  have hall : ∀ d < 16, digitOf d.digitChar = d := by decide
  rw [List.map_map]
  exact (List.map_congr_left fun d hd => hall d (h d hd)).trans (List.map_id _)

namespace HasDigits

variable {cs : List Char} {m n : Nat}

/-- A number can be told from its digits. -/
theorem unique (hle : b ≤ 16) (hm : HasDigits b cs m) (hn : HasDigits b cs n) : m = n := by
  obtain ⟨ms, _, hms, hcs, rfl⟩ := hm
  obtain ⟨ns, _, hns, hcs', rfl⟩ := hn
  have heq := congrArg (List.map digitOf) (hcs.symm.trans hcs')
  rw [map_digitOf fun d hd => Nat.lt_of_lt_of_le (hms d hd) hle,
    map_digitOf fun d hd => Nat.lt_of_lt_of_le (hns d hd) hle] at heq
  rw [heq]

theorem ne_nil (h : HasDigits b cs n) : cs ≠ [] := by
  obtain ⟨values, hne, _, rfl, _⟩ := h
  exact fun hnil => hne (List.map_eq_nil_iff.mp hnil)

theorem exists_digit_of_mem (h : HasDigits b cs n) {c : Char} (hc : c ∈ cs) :
    ∃ d < b, c = d.digitChar := by
  obtain ⟨values, _, hlt, rfl, _⟩ := h
  obtain ⟨d, hd, rfl⟩ := List.mem_map.mp hc
  exact ⟨d, hlt d hd, rfl⟩

theorem isAlphanum_of_mem (hle : b ≤ 16) (h : HasDigits b cs n) {c : Char} (hc : c ∈ cs) :
    c.isAlphanum = true := by
  have hall : ∀ d < 16, d.digitChar.isAlphanum = true := by decide
  obtain ⟨d, hd, rfl⟩ := h.exists_digit_of_mem hc
  exact hall d (Nat.lt_of_lt_of_le hd hle)

end HasDigits

/-! ## What follows a number -/

theorem HasDigits.append_inj (hle : b ≤ 16) {s t : List Char} {m n : Nat} (hs : HasDigits b s m)
    (ht : HasDigits b t n) (hx : ∀ c ∈ x.head?, c.isAlphanum = false)
    (hy : ∀ c ∈ y.head?, c.isAlphanum = false) (h : s ++ x = t ++ y) : m = n ∧ x = y := by
  obtain ⟨rfl, hrest⟩ := append_inj_of_head (fun _ => hs.isAlphanum_of_mem hle)
    (fun _ => ht.isAlphanum_of_mem hle) hx hy h
  exact ⟨hs.unique hle ht, hrest⟩

theorem toDigits_append_inj (hb : 1 < b) (hle : b ≤ 16) {m n : Nat}
    (hx : ∀ c ∈ x.head?, c.isAlphanum = false) (hy : ∀ c ∈ y.head?, c.isAlphanum = false)
    (h : Nat.toDigits b m ++ x = Nat.toDigits b n ++ y) : m = n ∧ x = y :=
  (hasDigits_toDigits hb m).append_inj hle (hasDigits_toDigits hb n) hx hy h

section Words

variable {v w : UInt64}

theorem decimal_append_inj (hx : ∀ c ∈ x.head?, c.isAlphanum = false)
    (hy : ∀ c ∈ y.head?, c.isAlphanum = false)
    (h : (Word.decimal v).toList ++ x = (Word.decimal w).toList ++ y) : v = w ∧ x = y := by
  simp only [Word.decimal, String.toList_ofList] at h
  obtain ⟨hn, hrest⟩ := toDigits_append_inj (by decide) (by decide) hx hy h
  exact ⟨UInt64.toNat_inj.mp hn, hrest⟩

/-- A number between two texts, or nothing if there is no number. -/
def numberBetween (before after : List Char) : Option UInt64 → List Char
  | none => []
  | some v => before ++ ((Word.decimal v).toList ++ after)

/-- What can stand behind such a part: it does not open like the part, nor go on with its digits. -/
structure Follows (before after x : List Char) : Prop where
  opening : ¬ before <+: x
  digit : ∀ c ∈ (after ++ x).head?, c.isAlphanum = false

/-- Whether there is a number, and which, shows in a text that goes on in another way. -/
theorem numberBetween_append_inj {before after : List Char} {v w : Option UInt64}
    (hx : Follows before after x) (hy : Follows before after y)
    (h : numberBetween before after v ++ x = numberBetween before after w ++ y) :
    v = w ∧ x = y := by
  have hopens : ∀ (v : UInt64) (z : List Char),
      before <+: numberBetween before after (some v) ++ z := fun v z => by
    rw [numberBetween, List.append_assoc]
    exact List.prefix_append _ _
  cases v with
  | none =>
    cases w with
    | none => exact ⟨rfl, h⟩
    | some w =>
      have hsplit : x = numberBetween before after (some w) ++ y := h
      exact absurd (hsplit ▸ hopens w y) hx.opening
  | some v =>
    cases w with
    | none =>
      have hsplit : numberBetween before after (some v) ++ x = y := h
      exact absurd (hsplit ▸ hopens v x) hy.opening
    | some w =>
      simp only [numberBetween, List.append_assoc] at h
      obtain ⟨rfl, hrest⟩ := decimal_append_inj hx.digit hy.digit (List.append_cancel_left h)
      exact ⟨rfl, List.append_cancel_left hrest⟩

end Words

end TieredMemory
