import Mathlib.Data.String.Basic

/-!
# Texts and their bytes

A text has one UTF-8 form, and no other text has it. Texts are compared by their code points, and
comparing the forms byte by byte gives the same order: the first byte of a character grows with the
number of bytes, and for characters of the same length the bytes are the digits of the code point,
from the highest on.
-/
set_option autoImplicit false

namespace TieredMemory.Text

theorem fromUTF8?_eq_some_iff {b : ByteArray} {s : String} :
    String.fromUTF8? b = some s ↔ b = s.toUTF8 := by
  unfold String.fromUTF8?
  split
  · rw [Option.some.injEq, ← String.toByteArray_inj]
    exact Iff.rfl
  · next h =>
    simp only [reduceCtorEq, false_iff]
    rintro rfl
    exact h s.isValidUTF8

/-- The UTF-8 form of a text. -/
def bytes (s : String) : List UInt8 := s.toUTF8.data.toList

/-- The last `k` bytes for a code point: its last digits to the base 64, each with the mark of a
byte that does not begin a character. -/
def trail (v : Nat) : Nat → List UInt8
  | 0 => []
  | k + 1 => UInt8.ofNat (v / 64 ^ k % 64 + 0x80) :: trail v k

/-- How many bytes follow the first one. -/
def trailing (v : Nat) : Nat :=
  if v ≤ 0x7f then 0 else if v ≤ 0x7ff then 1 else if v ≤ 0xffff then 2 else 3

/-- The first byte: the digits that the others leave, with a mark for their number. -/
def lead (v : Nat) : Nat :=
  if v ≤ 0x7f then v
  else if v ≤ 0x7ff then v / 64 + 0xc0
  else if v ≤ 0xffff then v / 4096 + 0xe0
  else v / 262144 + 0xf0

variable {v w : Nat}

theorem lt_of_char (c : Char) : c.val.toNat < 0x110000 := by
  rcases c.valid with h | h
  · exact Nat.lt_trans h (by decide)
  · exact h.2

theorem utf8EncodeChar_eq (c : Char) :
    String.utf8EncodeChar c =
      UInt8.ofNat (lead c.val.toNat) :: trail c.val.toNat (trailing c.val.toNat) := by
  have hc := lt_of_char c
  unfold String.utf8EncodeChar lead trailing
  generalize c.val.toNat = v at hc
  dsimp only
  split
  · rfl
  split
  · have hlead : v / 64 % 32 = v / 64 := by omega
    simp [trail, hlead]
  split
  · have hlead : v / 4096 % 16 = v / 4096 := by omega
    simp [trail, hlead]
  · have hlead : v / 262144 % 8 = v / 262144 := by omega
    simp [trail, hlead]

theorem ofNat_lt_ofNat (h : v < w) (hw : w < 256) : UInt8.ofNat v < UInt8.ofNat w := by
  rw [UInt8.lt_iff_toNat_lt, UInt8.toNat_ofNat_of_lt' (Nat.lt_trans h hw),
    UInt8.toNat_ofNat_of_lt' hw]
  exact h

/-- The later bytes compare as the digits that they stand for. -/
theorem trail_append_lt {k : Nat} (h : v % 64 ^ k < w % 64 ^ k) (s t : List UInt8) :
    trail v k ++ s < trail w k ++ t := by
  induction k with
  | zero =>
    rw [Nat.pow_zero, Nat.mod_one, Nat.mod_one] at h
    exact absurd h (Nat.lt_irrefl 0)
  | succ k ih =>
    rw [Nat.mod_pow_succ, Nat.mod_pow_succ] at h
    rw [trail, trail, List.cons_append, List.cons_append, List.cons_lt_cons_iff]
    -- the highest digit left decides, unless it is the same in both
    rcases Nat.lt_trichotomy (v / 64 ^ k % 64) (w / 64 ^ k % 64) with hlt | heq | hgt
    · exact Or.inl (ofNat_lt_ofNat (by omega) (by omega))
    · rw [heq] at h ⊢
      exact Or.inr ⟨rfl, ih (Nat.lt_of_add_lt_add_right h)⟩
    · have hdigit := Nat.mul_le_mul_left (64 ^ k) (Nat.succ_le_of_lt hgt)
      rw [Nat.mul_succ] at hdigit
      have hrest : w % 64 ^ k < 64 ^ k := Nat.mod_lt _ (Nat.pow_pos (by decide))
      omega

/-- Of two code points the lesser has the lesser first byte, or the same one with as many others
and less in them. -/
theorem lead_lt_or_digits_lt (h : v < w) (hw : w < 0x110000) :
    lead v < lead w ∨
      lead v = lead w ∧ trailing v = trailing w ∧ v % 64 ^ trailing v < w % 64 ^ trailing v := by
  unfold lead trailing
  -- a character of more bytes has a greater mark, and one of as many the same
  split_ifs <;> omega

theorem lead_lt (hw : w < 0x110000) : lead w < 256 := by
  unfold lead
  split_ifs <;> omega

/-- No character begins another one, so what stands behind is of no account. -/
theorem utf8EncodeChar_append_lt {c d : Char} (h : c < d) (s t : List UInt8) :
    String.utf8EncodeChar c ++ s < String.utf8EncodeChar d ++ t := by
  have hd := lt_of_char d
  rw [utf8EncodeChar_eq, utf8EncodeChar_eq, List.cons_append, List.cons_append,
    List.cons_lt_cons_iff]
  have hcode : c.val.toNat < d.val.toNat := UInt32.lt_iff_toNat_lt.mp h
  rcases lead_lt_or_digits_lt hcode hd with hlead | ⟨hlead, hlength, hdigits⟩
  · exact Or.inl (ofNat_lt_ofNat hlead (lead_lt hd))
  · rw [hlead, ← hlength]
    exact Or.inr ⟨rfl, trail_append_lt hdigits s t⟩

theorem bytes_eq (s : String) : bytes s = s.toList.flatMap String.utf8EncodeChar := by
  have hs : s.toUTF8 = s.toList.utf8Encode := by
    rw [String.toUTF8_eq_toByteArray, ← String.toByteArray_ofList, String.ofList_toList]
  rw [bytes, hs, List.utf8Encode, List.toList_data_toByteArray]

theorem flatMap_utf8EncodeChar_lt {l m : List Char} (h : l < m) :
    l.flatMap String.utf8EncodeChar < m.flatMap String.utf8EncodeChar := by
  induction h with
  | @nil c m =>
    obtain ⟨b, rest, hc⟩ := List.exists_cons_of_ne_nil (String.utf8EncodeChar_ne_nil (c := c))
    rw [List.flatMap_cons, hc]
    exact List.nil_lt_cons b _
  | rel h => exact utf8EncodeChar_append_lt h _ _
  | cons _ ih => exact List.append_left_lt ih

/-- The order of texts is that of their UTF-8 forms. -/
theorem lt_iff_bytes_lt {s t : String} : s < t ↔ bytes s < bytes t := by
  have hmono {s t : String} (h : s < t) : bytes s < bytes t := by
    rw [bytes_eq, bytes_eq]
    exact flatMap_utf8EncodeChar_lt h
  refine ⟨hmono, fun h => ?_⟩
  rcases lt_trichotomy s t with hlt | rfl | hgt
  · exact hlt
  · exact absurd h (List.lt_irrefl _)
  · exact absurd h (List.lt_asymm (hmono hgt))

end TieredMemory.Text
