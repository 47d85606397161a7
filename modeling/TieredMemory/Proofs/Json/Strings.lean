import TieredMemory.Json.Reader
import TieredMemory.Json.Writer

/-!
# Reading string literals back

Each character is spelled as itself, by a short escape or by its code, and the reader takes each
spelling for one piece. The codes that are written name characters below the blank, so none of them
is taken for half of a surrogate pair; the half that stands for no text denotes no text.
-/
set_option autoImplicit false

namespace TieredMemory.Json

variable {c : Char} {p : Piece} {spelling rest : List Char}

/-! ## Pieces -/

/-- The characters that stand for a piece of a literal. -/
inductive Spells : List Char → Piece → Prop where
  | plain {c : Char} (hc : ¬ c < ' ') (hq : c ≠ '"') (hb : c ≠ '\\') : Spells [c] (.char c)
  | short {e x : Char} (h : shortEscape? e = some x) : Spells ['\\', e] (.char x)
  | code {a b c d : Char} {n : Nat} (h : hexUnit? a b c d = some n) :
    Spells ['\\', 'u', a, b, c, d] (.unit n)

/-- A piece that means the character, whatever follows it. -/
def Piece.Means (p : Piece) (c : Char) : Prop :=
  ∀ pieces, joinPieces (p :: pieces) = (joinPieces pieces).map (c :: ·)

theorem means_char (c : Char) : (Piece.char c).Means c := fun pieces => by rw [joinPieces]

/-- A unit outside the range of surrogates means the character of that number. -/
theorem means_unit (h : c.toNat < 0xD800) : (Piece.unit c.toNat).Means c := fun pieces => by
  have hleading : isLeadingHalf c.toNat = false := by
    simp only [isLeadingHalf, Bool.and_eq_false_iff, decide_eq_false_iff_not]
    omega
  have htrailing : isTrailingHalf c.toNat = false := by
    simp only [isTrailingHalf, Bool.and_eq_false_iff, decide_eq_false_iff_not]
    omega
  rw [joinPieces.eq_def]
  simp [hleading, htrailing]

theorem exists_hexUnit? (h : c < ' ') : ∃ a b d e,
    (Nat.toDigits 16 c.toNat).leftpad 4 '0' = [a, b, d, e] ∧ hexUnit? a b d e = some c.toNat := by
  have hall : ∀ n < 32, (Nat.toDigits 16 n).leftpad 4 '0' =
      ['0', '0', Nat.digitChar (n / 16), Nat.digitChar (n % 16)] ∧
      hexUnit? '0' '0' (Nat.digitChar (n / 16)) (Nat.digitChar (n % 16)) = some n := by decide
  exact ⟨_, _, _, _, hall c.toNat h⟩

theorem exists_spells_escapeChar (c : Char) : ∃ p, Spells (escapeChar c) p ∧ p.Means c := by
  unfold escapeChar
  repeat' split
  -- seven characters have a short escape
  any_goals (rename_i h; subst h; exact ⟨_, .short rfl, means_char _⟩)
  · next h =>
    obtain ⟨a, b, d, e, hdigits, hunit⟩ := exists_hexUnit? h
    have hlt : c.toNat < 32 := h
    rw [hdigits]
    exact ⟨_, .code hunit, means_unit (by omega)⟩
  · next hq hb _ _ _ _ _ hc => exact ⟨_, .plain hc hq hb, means_char c⟩

theorem readPieces_of_spells (h : Spells spelling p) (rest : List Char) :
    readPieces (spelling ++ rest) =
      (readPieces rest).map fun (pieces, after) => (p :: pieces, after) := by
  cases h with
  | plain hc hq hb =>
    rw [List.singleton_append, readPieces]
    · rw [if_neg hc]
      cases readPieces rest <;> rfl
    all_goals simp_all
  | short he =>
    rw [List.cons_append, List.singleton_append, readPieces]
    · rw [he]
      cases readPieces rest <;> rfl
    all_goals
      intros
      subst_vars
      simp [shortEscape?] at he
  | code hc =>
    simp only [List.cons_append, List.nil_append]
    rw [readPieces, hc]
    cases readPieces rest <;> rfl

/-! ## Literals -/

/-- The pieces of a written text, up to its closing quote, mean its characters. -/
theorem exists_readPieces (cs rest : List Char) : ∃ pieces,
    readPieces (cs.flatMap escapeChar ++ '"' :: rest) = some (pieces, rest) ∧
      joinPieces pieces = some cs := by
  induction cs with
  | nil => exact ⟨[], by simp [readPieces], rfl⟩
  | cons c cs ih =>
    obtain ⟨p, hspells, hmeans⟩ := exists_spells_escapeChar c
    obtain ⟨pieces, hread, hjoin⟩ := ih
    refine ⟨p :: pieces, ?_, ?_⟩
    · rw [List.flatMap_cons, List.append_assoc, readPieces_of_spells hspells, hread]
      rfl
    · rw [hmeans, hjoin]
      rfl

theorem quote_some (s : String) :
    quote (some s) = '"' :: (s.toList.flatMap escapeChar ++ ['"']) := rfl

theorem quote_none : quote none = ['"', '\\', 'u', 'd', '8', '0', '0', '"'] := by
  show "\"\\ud800\"".toList = _
  simp

/-- A literal is read back behind its opening quote. -/
theorem exists_quote (l : Literal) (rest : List Char) :
    ∃ body, quote l ++ rest = '"' :: body ∧ readLiteral body = some (l, rest) := by
  cases l with
  | none =>
    have hspells : Spells ['\\', 'u', 'd', '8', '0', '0'] (.unit 0xD800) := .code (by decide)
    refine ⟨['\\', 'u', 'd', '8', '0', '0'] ++ '"' :: rest, by simp [quote_none], ?_⟩
    rw [readLiteral, readPieces_of_spells hspells, readPieces]
    rfl
  | some s =>
    obtain ⟨pieces, hread, hjoin⟩ := exists_readPieces s.toList rest
    refine ⟨s.toList.flatMap escapeChar ++ '"' :: rest, by simp [quote_some], ?_⟩
    simp [readLiteral, hread, hjoin]

end TieredMemory.Json
