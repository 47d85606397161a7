import Mathlib
import TieredMemory.Number
import TieredMemory.Proofs.Word.Digits

/-!
# Which texts are numbers

What a text says does not depend on blanks around it, on underscores or on the case of letters: what
is left is a numeral if it has the mark of a base, at most one plus sign, and digits of that base,
at least one. The reader takes exactly these texts, as long as the value is a word. It stops at the
first digit with which the number is too large, and no digit after that makes it smaller.
-/
set_option autoImplicit false

namespace TieredMemory

namespace Text

variable {cs core : List Char}

/-- What is left of a text without the blanks around it. -/
structure Trims (cs core : List Char) : Prop where
  around : ∃ before after, cs = before ++ (core ++ after) ∧ (∀ c ∈ before, isBlank c = true) ∧
    ∀ c ∈ after, isBlank c = true
  first : ∀ c ∈ core.head?, isBlank c = false
  last : ∀ c ∈ core.getLast?, isBlank c = false

theorem dropWhile_of_head {p : Char → Bool} (h : ∀ c ∈ cs.head?, p c = false) :
    cs.dropWhile p = cs := by
  cases cs with
  | nil => rfl
  | cons c cs => exact List.dropWhile_cons_of_neg (by simp [h c rfl])

theorem head_dropWhile (p : Char → Bool) (cs : List Char) :
    ∀ c ∈ (cs.dropWhile p).head?, p c = false := by
  intro c hc
  have h := List.head?_dropWhile_not p cs
  rwa [Option.mem_def.mp hc] at h

theorem trims_trim (cs : List Char) : Trims cs (trim cs) := by
  let after := ((cs.dropWhile isBlank).reverse.takeWhile isBlank).reverse
  have hsplit : cs.dropWhile isBlank = trim cs ++ after := by
    rw [trim, ← List.reverse_append, List.takeWhile_append_dropWhile, List.reverse_reverse]
  refine ⟨⟨cs.takeWhile isBlank, after, ?_, ?_, ?_⟩, ?_, ?_⟩
  · rw [← hsplit, List.takeWhile_append_dropWhile]
  · exact fun c => List.mem_takeWhile_imp
  · exact fun c hc => List.mem_takeWhile_imp (List.mem_reverse.mp hc)
  · intro c hc
    refine head_dropWhile isBlank cs c ?_
    rw [hsplit, List.head?_append, Option.mem_def.mp hc]
    rfl
  · intro c hc
    rw [trim, List.getLast?_reverse] at hc
    exact head_dropWhile isBlank _ c hc

theorem Trims.trim_eq (h : Trims cs core) : trim cs = core := by
  obtain ⟨⟨before, after, rfl, hbefore, hafter⟩, hfirst, hlast⟩ := h
  rw [trim, List.dropWhile_append_of_pos hbefore]
  cases core with
  | nil =>
    rw [List.nil_append, List.dropWhile_eq_nil_iff.mpr hafter]
    rfl
  | cons c core =>
    have hstart : (c :: core ++ after).dropWhile isBlank = c :: core ++ after :=
      dropWhile_of_head fun d hd => hfirst d hd
    have hstop : (c :: core).reverse.dropWhile isBlank = (c :: core).reverse :=
      dropWhile_of_head fun d hd => hlast d (List.head?_reverse ▸ hd)
    rw [hstart, List.reverse_append, List.dropWhile_append_of_pos
      fun d hd => hafter d (List.mem_reverse.mp hd), hstop, List.reverse_reverse]

theorem trim_eq_iff : trim cs = core ↔ Trims cs core :=
  ⟨fun h => h ▸ trims_trim cs, Trims.trim_eq⟩

end Text

namespace Number

variable {base : Nat} {cs : List Char} {n : Nat}

/-- The bases that numerals are in. -/
inductive Base where
  | binary
  | decimal
  | hexadecimal

def Base.radix : Base → Nat
  | .binary => 2
  | .decimal => 10
  | .hexadecimal => 16

/-- The characters in front of a numeral of the base. -/
def Base.mark : Base → List Char
  | .binary => ['0', 'b']
  | .decimal => []
  | .hexadecimal => ['0', 'x']

/-- At least one digit of the base, with at most one plus sign in front. -/
def SignedDigits (base : Nat) (cs : List Char) (n : Nat) : Prop :=
  ∃ sign digits, (sign = [] ∨ sign = ['+']) ∧ cs = sign ++ digits ∧ HasDigits base digits n

/-- A numeral in lower case, and its value. -/
def Numeral (cs : List Char) (n : Nat) : Prop :=
  ∃ (b : Base) (rest : List Char), cs = b.mark ++ rest ∧ SignedDigits b.radix rest n

/-- What a text says: without the blanks around it, and without regard to underscores and case, it
is a numeral of that value. -/
def Says (s : String) (n : Nat) : Prop :=
  ∃ core, Text.Trims s.toList core ∧ Numeral ((core.filter (· != '_')).map Char.toLower) n

/-- The text is the number in the base, with any number of zeros in front of its digits and
underscores anywhere, and with letters of either case. -/
def Spells (b : Base) (n : Nat) (s : String) : Prop :=
  ∃ zeros, (s.toList.filter (· != '_')).map Char.toLower =
    b.mark ++ (List.replicate zeros '0' ++ Nat.toDigits b.radix n)

theorem Base.one_lt_radix (b : Base) : 1 < b.radix := by cases b <;> decide

theorem Base.radix_le (b : Base) : b.radix ≤ 16 := by cases b <;> decide

theorem says_iff {s : String} : Says s n ↔ Numeral (clean s.toList) n := by
  constructor
  · rintro ⟨core, hcore, h⟩
    rwa [clean, Text.trim_eq_iff.mpr hcore]
  · exact fun h => ⟨_, Text.trim_eq_iff.mp rfl, h⟩

/-! ## Digits -/

theorem digit?_digitChar {d : Nat} (h : d < 16) :
    digit? base d.digitChar = if d < base then some d else none := by
  have hall : ∀ d < 16, digit? 16 d.digitChar = some d := by decide
  have hvalue := hall d h
  unfold digit? at hvalue ⊢
  rw [Option.filter_eq_some_iff] at hvalue
  rw [hvalue.1, Option.filter_some]
  simp

/-- Of the characters in lower case only those of its digits are read in a base. -/
theorem eq_digitChar_of_digit? (hle : base ≤ 16) {c : Char} (hc : c.isUpper = false) {d : Nat}
    (h : digit? base c = some d) : d < base ∧ c = d.digitChar := by
  unfold digit? at h
  rw [Option.filter_eq_some_iff, decide_eq_true_eq] at h
  obtain ⟨hvalue, hd⟩ := h
  refine ⟨hd, Char.toNat_inj.mp ?_⟩
  have hletter : ∀ d < 16, 10 ≤ d → d.digitChar.toNat = d + 87 := by decide
  have hdigit : ∀ d < 10, d.digitChar.toNat = d + 48 := by decide
  split at hvalue
  · next hrange =>
    have h0 : 48 ≤ c.toNat := hrange.1
    have h9 : c.toNat ≤ 57 := hrange.2
    obtain rfl : c.toNat - 48 = d := Option.some.inj hvalue
    rw [hdigit _ (by omega)]
    omega
  · split at hvalue
    · next hrange =>
      have ha : 97 ≤ c.toNat := hrange.1
      obtain rfl : c.toNat - 97 + 10 = d := Option.some.inj hvalue
      rw [hletter _ (by omega) (by omega)]
      omega
    · split at hvalue
      · next hrange =>
        have hupper : c.isUpper = true := decide_eq_true hrange
        rw [hc] at hupper
        cases hupper
      · cases hvalue

/-! ## Reading digits -/

/-- The first two digits are as good as the one that they make. -/
theorem ofDigits_step (base seen d : Nat) (values : List Nat) :
    Nat.ofDigits base ((seen * base + d) :: values).reverse =
      Nat.ofDigits base (seen :: d :: values).reverse := by
  simp only [List.reverse_cons, Nat.ofDigits_append, Nat.ofDigits_singleton, List.length_append,
    List.length_singleton, Nat.pow_succ]
  ring

theorem le_ofDigits (hbase : 0 < base) (seen : Nat) (values : List Nat) :
    seen ≤ Nat.ofDigits base (seen :: values).reverse := by
  rw [List.reverse_cons, Nat.ofDigits_append, Nat.ofDigits_singleton]
  exact Nat.le_trans (Nat.le_mul_of_pos_left seen (Nat.pow_pos hbase)) (Nat.le_add_left _ _)

/-- Digits are read to their value behind what was seen before, unless that is no word. -/
theorem readDigits_digits (hle : base ≤ 16) {values : List Nat} (hlt : ∀ d ∈ values, d < base)
    {seen : Nat} (hseen : seen < UInt64.size) :
    readDigits base seen (values.map Nat.digitChar) =
      if Nat.ofDigits base (seen :: values).reverse < UInt64.size then
        .ok (Nat.ofDigits base (seen :: values).reverse)
      else .error .tooLarge := by
  induction values generalizing seen with
  | nil => simp [readDigits, hseen]
  | cons d values ih =>
    have hd := hlt d List.mem_cons_self
    rw [List.map_cons, readDigits, digit?_digitChar (Nat.lt_of_lt_of_le hd hle), if_pos hd]
    dsimp only
    split
    · next hfits => rw [ih (fun e he => hlt e (List.mem_cons_of_mem _ he)) hfits, ofDigits_step]
    · next hlarge =>
      have hgrows := le_ofDigits (Nat.zero_lt_of_lt hd) (seen * base + d) values
      rw [ofDigits_step] at hgrows
      rw [if_neg (by omega)]

theorem readDigits_of_hasDigits (hle : base ≤ 16) (h : HasDigits base cs n) :
    readDigits base 0 cs = if n < UInt64.size then .ok n else .error .tooLarge := by
  obtain ⟨values, _, hlt, rfl, rfl⟩ := h
  rw [readDigits_digits hle hlt (by decide)]
  simp [Nat.ofDigits_append]

/-- What is read has nothing but digits. -/
theorem exists_values_of_readDigits (hle : base ≤ 16) (hlower : ∀ c ∈ cs, c.isUpper = false)
    {seen : Nat} (h : readDigits base seen cs = .ok n) :
    ∃ values : List Nat, (∀ d ∈ values, d < base) ∧ cs = values.map Nat.digitChar := by
  induction cs generalizing seen with
  | nil => exact ⟨[], by simp, rfl⟩
  | cons c cs ih =>
    rw [readDigits] at h
    cases hd : digit? base c with
    | none => simp [hd] at h
    | some d =>
      simp only [hd] at h
      obtain ⟨hlt, rfl⟩ := eq_digitChar_of_digit? hle (hlower c List.mem_cons_self) hd
      split at h
      · obtain ⟨values, hvalues, rfl⟩ := ih (fun e he => hlower e (List.mem_cons_of_mem _ he)) h
        exact ⟨d :: values, List.forall_mem_cons.mpr ⟨hlt, hvalues⟩, rfl⟩
      · cases h

theorem hasDigits_of_readDigits (hle : base ≤ 16) (hne : cs ≠ [])
    (hlower : ∀ c ∈ cs, c.isUpper = false) (h : readDigits base 0 cs = .ok n) :
    HasDigits base cs n := by
  obtain ⟨values, hlt, rfl⟩ := exists_values_of_readDigits hle hlower h
  have hdigits : HasDigits base (values.map Nat.digitChar) (Nat.ofDigits base values.reverse) :=
    ⟨values, fun hnil => hne (by rw [hnil]; rfl), hlt, rfl, rfl⟩
  rw [readDigits_of_hasDigits hle hdigits] at h
  split at h
  · cases h
    exact hdigits
  · cases h

/-! ## Reading numerals -/

theorem readNumeral_of_signedDigits (hle : base ≤ 16) (h : SignedDigits base cs n) :
    readNumeral base cs =
      if n < UInt64.size then .ok (UInt64.ofNat n) else .error .tooLarge := by
  obtain ⟨sign, digits, hsign, rfl, hdigits⟩ := h
  have hread : (readDigits base 0 digits).map UInt64.ofNat =
      if n < UInt64.size then .ok (UInt64.ofNat n) else .error .tooLarge := by
    rw [readDigits_of_hasDigits hle hdigits]
    split <;> rfl
  obtain ⟨c, rest, rfl⟩ := List.exists_cons_of_ne_nil hdigits.ne_nil
  have hplus : c ≠ '+' := by
    obtain ⟨d, _, rfl⟩ := hdigits.exists_digit_of_mem List.mem_cons_self
    exact Nat.digitChar_ne '+' (by decide)
  rw [← hread]
  rcases hsign with rfl | rfl
  · unfold readNumeral
    split <;> simp_all
  · rfl

theorem signedDigits_of_readNumeral (hle : base ≤ 16) (hlower : ∀ c ∈ cs, c.isUpper = false)
    {w : UInt64} (h : readNumeral base cs = .ok w) : SignedDigits base cs w.toNat := by
  have hdigits : ∀ {digits : List Char}, digits ≠ [] → (∀ c ∈ digits, c.isUpper = false) →
      (readDigits base 0 digits).map UInt64.ofNat = .ok w → HasDigits base digits w.toNat := by
    intro digits hne hdigits h
    cases hr : readDigits base 0 digits with
    | error e => simp [hr, Except.map] at h
    | ok n =>
      have hn := hasDigits_of_readDigits hle hne hdigits hr
      rw [hr] at h
      cases h
      rw [readDigits_of_hasDigits hle hn] at hr
      split at hr
      · next hfits => rwa [UInt64.toNat_ofNat_of_lt' hfits]
      · cases hr
  unfold readNumeral at h
  split at h
  · cases h
  · cases h
  · next digits hne =>
    have hne : digits ≠ [] := fun hnil => hne (by rw [hnil])
    exact ⟨['+'], digits, .inr rfl, rfl,
      hdigits hne (fun c hc => hlower c (List.mem_cons_of_mem _ hc)) h⟩
  · next hne _ _ => exact ⟨[], cs, .inl rfl, rfl, hdigits hne hlower h⟩

/-- Decimal digits, with a sign or not, do not start like the mark of another base. -/
theorem readCleaned_of_decimal (h : SignedDigits 10 cs n) : readCleaned cs = readNumeral 10 cs := by
  obtain ⟨sign, digits, hsign, rfl, hdigits⟩ := h
  have hmark : ∀ c ∈ digits, c ≠ 'x' ∧ c ≠ 'b' := by
    have hall : ∀ d < 10, d.digitChar ≠ 'x' ∧ d.digitChar ≠ 'b' := by decide
    intro c hc
    obtain ⟨d, hd, rfl⟩ := hdigits.exists_digit_of_mem hc
    exact hall d hd
  unfold readCleaned
  rcases hsign with rfl | rfl
  · split
    · next heq => exact absurd rfl (hmark 'x' (by simp [show digits = _ from heq])).1
    · next heq => exact absurd rfl (hmark 'b' (by simp [show digits = _ from heq])).2
    · rfl
  · rfl

/-- A numeral is read to its value, unless that is no word. -/
theorem readCleaned_of_numeral (h : Numeral cs n) :
    readCleaned cs = if n < UInt64.size then .ok (UInt64.ofNat n) else .error .tooLarge := by
  obtain ⟨b, rest, rfl, hrest⟩ := h
  rw [← readNumeral_of_signedDigits b.radix_le hrest]
  cases b with
  | binary => rfl
  | hexadecimal => rfl
  | decimal => exact readCleaned_of_decimal hrest

theorem numeral_of_readCleaned (hlower : ∀ c ∈ cs, c.isUpper = false) {w : UInt64}
    (h : readCleaned cs = .ok w) : Numeral cs w.toNat := by
  unfold readCleaned at h
  split at h
  · next digits =>
    refine ⟨.hexadecimal, digits, rfl, signedDigits_of_readNumeral (by decide) ?_ h⟩
    exact fun c hc => hlower c (List.mem_cons_of_mem _ (List.mem_cons_of_mem _ hc))
  · next digits =>
    refine ⟨.binary, digits, rfl, signedDigits_of_readNumeral (by decide) ?_ h⟩
    exact fun c hc => hlower c (List.mem_cons_of_mem _ (List.mem_cons_of_mem _ hc))
  · exact ⟨.decimal, _, rfl, signedDigits_of_readNumeral (by decide) hlower h⟩

theorem isUpper_of_mem_clean {c : Char} (h : c ∈ clean cs) : c.isUpper = false := by
  obtain ⟨d, _, rfl⟩ := List.mem_map.mp h
  exact Char.isUpper_toLower_eq_false d

theorem parse_eq_ite {s : String} (h : Says s n) :
    parse s = if n < UInt64.size then .ok (UInt64.ofNat n) else .error .tooLarge :=
  readCleaned_of_numeral (says_iff.mp h)

theorem parse_eq_ok_iff {s : String} {w : UInt64} : parse s = .ok w ↔ Says s w.toNat := by
  constructor
  · exact fun h => says_iff.mpr (numeral_of_readCleaned (fun _ => isUpper_of_mem_clean) h)
  · intro h
    rw [parse_eq_ite h, if_pos w.toNat_lt, UInt64.ofNat_toNat]

example : parse " 0X+00_fF\n" = .ok 255 := by cbv

/-! ## Texts of a number -/

/-- Characters of a numeral are left as they are by what is left out of a text. -/
theorem plain_of_mem_numeral {b : Base} {digits : List Char} (h : HasDigits b.radix digits n) :
    ∀ c ∈ b.mark ++ digits, Text.isBlank c = false ∧ c ≠ '_' ∧ c.toLower = c := by
  have hall : ∀ d < 16, Text.isBlank d.digitChar = false ∧ d.digitChar ≠ '_' ∧
      d.digitChar.toLower = d.digitChar := by decide
  have hmark : ∀ c ∈ b.mark, Text.isBlank c = false ∧ c ≠ '_' ∧ c.toLower = c := by
    cases b <;> simp [Base.mark, Text.isBlank, Text.blankRanges]
  refine List.forall_mem_append.mpr ⟨hmark, fun c hc => ?_⟩
  obtain ⟨d, hd, rfl⟩ := h.exists_digit_of_mem hc
  exact hall d (Nat.lt_of_lt_of_le hd b.radix_le)

theorem toLower_of_isBlank {c : Char} (h : Text.isBlank c = true) : c.toLower = c := by
  refine Char.toLower_eq_of_not_isUpper fun hupper => ?_
  have hrange : 65 ≤ c.toNat ∧ c.toNat ≤ 90 := of_decide_eq_true hupper
  simp [Text.isBlank, Text.blankRanges] at h
  omega

/-- No blank is part of a number, so nothing around it is left out. -/
theorem isBlank_of_spells {b : Base} {s : String} (h : Spells b n s) :
    ∀ c ∈ s.toList, Text.isBlank c = false := by
  obtain ⟨zeros, h⟩ := h
  intro c hc
  by_contra hblank
  rw [Bool.not_eq_false] at hblank
  have hkept : (c != '_') = true := bne_iff_ne.mpr fun heq => by
    rw [heq] at hblank
    cases hblank
  have hmem : c.toLower ∈ (s.toList.filter (· != '_')).map Char.toLower :=
    List.mem_map_of_mem (List.mem_filter.mpr ⟨hc, hkept⟩)
  rw [toLower_of_isBlank hblank, h] at hmem
  have hplain := plain_of_mem_numeral (hasDigits_padded b.one_lt_radix zeros n) c hmem
  rw [hblank] at hplain
  cases hplain.1

theorem says_of_spells {b : Base} {s : String} (h : Spells b n s) : Says s n := by
  have hblank := isBlank_of_spells h
  obtain ⟨zeros, h⟩ := h
  refine ⟨s.toList, ⟨⟨[], [], by simp, by simp, by simp⟩, ?_, ?_⟩, ?_⟩
  · exact fun c hc => hblank c (List.mem_of_mem_head? hc)
  · exact fun c hc => hblank c (List.mem_of_mem_getLast? hc)
  · rw [h]
    exact ⟨b, _, rfl, [], _, .inl rfl, rfl, hasDigits_padded b.one_lt_radix zeros n⟩

/-- A number in a base, as programs write it, is one of its texts. -/
theorem spells_of_toList {b : Base} {s : String} (zeros : Nat)
    (h : s.toList = b.mark ++ (List.replicate zeros '0' ++ Nat.toDigits b.radix n)) :
    Spells b n s := by
  have hplain := plain_of_mem_numeral (hasDigits_padded b.one_lt_radix zeros n)
  refine ⟨zeros, ?_⟩
  rw [h, List.filter_eq_self.mpr fun c hc => bne_iff_ne.mpr (hplain c hc).2.1]
  exact (List.map_congr_left fun c hc => (hplain c hc).2.2).trans (List.map_id _)

theorem spells_decimal (w : UInt64) : Spells .decimal w.toNat (Word.decimal w) :=
  spells_of_toList 0 (String.toList_ofList)

theorem spells_hexText (w : UInt64) : Spells .hexadecimal w.toNat (Word.hexText w) :=
  spells_of_toList 0 (by simp [Word.hexText, Word.hex, Base.mark, Base.radix])

theorem spells_addressText (w : UInt64) : Spells .hexadecimal w.toNat (Word.addressText w) :=
  spells_of_toList (16 - (Nat.toDigits 16 w.toNat).length)
    (by simp [Word.addressText, Word.hexPadded, Base.mark, Base.radix, List.leftpad])

/-- A text is read as a number exactly if it says that number and it is a word. Every way to spell a
word is read, those in which addresses and counts are printed too; a number past the last word is
too large, however it is spelled. -/
theorem parse_exactly (s : String) (w : UInt64) :
    (parse s = .ok w ↔ Says s w.toNat) ∧
      (∀ b, Spells b w.toNat s → parse s = .ok w) ∧
      (∀ v, Says s v → UInt64.size ≤ v → parse s = .error .tooLarge) ∧
      (∀ b v, Spells b v s → UInt64.size ≤ v → parse s = .error .tooLarge) ∧
      Spells .decimal w.toNat (Word.decimal w) ∧
      Spells .hexadecimal w.toNat (Word.hexText w) ∧
      Spells .hexadecimal w.toNat (Word.addressText w) := by
  have hlarge : ∀ v, Says s v → UInt64.size ≤ v → parse s = .error .tooLarge := fun v h hv => by
    rw [parse_eq_ite h, if_neg (Nat.not_lt.mpr hv)]
  exact ⟨parse_eq_ok_iff, fun b h => parse_eq_ok_iff.mpr (says_of_spells h), hlarge,
    fun b v h => hlarge v (says_of_spells h), spells_decimal w, spells_hexText w,
    spells_addressText w⟩

end Number

end TieredMemory
