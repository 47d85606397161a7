import TieredMemory.Toml.Text
import TieredMemory.Proofs.Toml.Runs

/-!
# Reading written strings back

Each of the four forms is read back as the text it was written for. On one line every quote is
escaped or there is none. Over several lines a quote may stand as it is, and the end is found as the
first three quotes in a row: what is written in between never has three, though up to two may touch
the closing ones.
-/
set_option autoImplicit false

namespace TieredMemory.Toml

variable {c x q : Char} {cs rest text after spelling : List Char} {fuel : Nat}

/-! ## Characters -/

/-- The characters that stand for one of the text, in a form with escapes. -/
inductive Spells : List Char → Char → Prop where
  | plain {c : Char} (h : isPlain c = true) (hq : c ≠ '"') (hb : c ≠ '\\') : Spells [c] c
  | short {e x : Char} (h : shortEscape? e = some x) : Spells ['\\', e] x
  | code {a b c d x : Char} (h : hexEscape? [a, b, c, d] = some x) :
    Spells ['\\', 'u', a, b, c, d] x

theorem hexEscape?_codeEscape (h : (c < ' ' || c == '\x7f') = true) :
    hexEscape? ['0', '0', upperHexDigit (c.toNat / 16), upperHexDigit (c.toNat % 16)] =
      some c := by
  have hc : c < ' ' ∨ c = '\x7f' := by simpa using h
  rcases hc with hlt | rfl
  · have hlt : c.toNat < 32 := hlt
    have hall : ∀ n < 32, hexEscape? ['0', '0', upperHexDigit (n / 16), upperHexDigit (n % 16)] =
        some (Char.ofNat n) := by decide
    rw [hall _ hlt, Char.ofNat_toNat]
  · decide

theorem isPlain_of_not_code (h : (c < ' ' || c == '\x7f') = false) : isPlain c = true := by
  simp only [Bool.or_eq_false_iff, decide_eq_false_iff_not, beq_eq_false_iff_ne] at h
  simp [isPlain, Char.not_lt.mp h.1, h.2]

theorem spells_escapeChar (hq : c ≠ '"') (hn : c ≠ '\n') : Spells (escapeChar c) c := by
  unfold escapeChar
  repeat' split
  · next h => subst h; exact .short rfl
  · next h => subst h; exact .short rfl
  · next h => subst h; exact .short rfl
  · next h => subst h; exact .short rfl
  · next h => subst h; exact .short rfl
  · next h => exact .code (hexEscape?_codeEscape h)
  · next hb h => exact .plain (isPlain_of_not_code (Bool.not_eq_true _ ▸ h)) hq hb

theorem spells_escapeBasic (c : Char) : Spells (escapeBasic c) c := by
  unfold escapeBasic
  repeat' split
  · next h => subst h; exact .short rfl
  · next h => subst h; exact .short rfl
  · next hq hn => exact spells_escapeChar hq hn

/-! ## One line -/

theorem readBasic_of_spells (h : Spells spelling x) (hr : readBasic rest = some (text, after)) :
    readBasic (spelling ++ rest) = some (x :: text, after) := by
  cases h with
  | plain hp hq hb =>
    rw [List.singleton_append, readBasic]
    · simp [hp, hr]
    all_goals simp_all
  | short he =>
    rw [List.cons_append, List.singleton_append, readBasic]
    · simp [he, hr]
    all_goals
      intros
      subst_vars
      simp [shortEscape?] at he
  | code hc =>
    simp only [List.cons_append, List.nil_append]
    rw [readBasic]
    simp [hc, hr]

theorem readBasic_escaped (cs rest : List Char) :
    readBasic (cs.flatMap escapeBasic ++ '"' :: rest) = some (cs, rest) := by
  induction cs with
  | nil => simp [readBasic]
  | cons c cs ih =>
    rw [List.flatMap_cons, List.append_assoc]
    exact readBasic_of_spells (spells_escapeBasic c) ih

theorem readLiteral_plain (rest : List Char) (h : ∀ c ∈ cs, isPlain c = true ∧ c ≠ '\'') :
    readLiteral (cs ++ '\'' :: rest) = some (cs, rest) := by
  induction cs with
  | nil => simp [readLiteral]
  | cons c cs ih =>
    obtain ⟨hp, hq⟩ := h c List.mem_cons_self
    have hrest := ih fun d hd => h d (List.mem_cons_of_mem _ hd)
    rw [List.cons_append, readLiteral]
    · simp [hp, hrest]
    · exact hq

/-! ## Several lines -/

/-- A text as it is written over several lines: quotes stand as they are while no three of them come
together, and so do line ends; any other character is spelled. -/
inductive Written (q : Char) (spells : List Char → Char → Prop) :
    List Char → List Char → Prop where
  | nil : Written q spells [] []
  | quote {e cs : List Char} (hrun : ¬ [q, q] <+: e) (h : Written q spells e cs) :
    Written q spells (q :: e) (q :: cs)
  | lineEnd {e cs : List Char} (h : Written q spells e cs) :
    Written q spells ('\n' :: e) ('\n' :: cs)
  | spelled {spelling e cs : List Char} {x : Char} (hx : spells spelling x)
    (h : Written q spells e cs) : Written q spells (spelling ++ e) (x :: cs)

/-- A spelling starts with a character that ends no line and no string. -/
def StartsPlain (q : Char) (spells : List Char → Char → Prop) : Prop :=
  ∀ spelling x, spells spelling x → ∃ d t, spelling = d :: t ∧ d ≠ q ∧ isPlain d = true

namespace Written

variable {spells : List Char → Char → Prop} {e : List Char}

theorem length_le (hs : StartsPlain q spells) (h : Written q spells e cs) :
    cs.length ≤ e.length := by
  induction h with
  | nil => exact Nat.le_refl _
  | quote _ _ ih => simpa using ih
  | lineEnd _ ih => simpa using ih
  | spelled hx _ ih =>
    obtain ⟨d, t, rfl, _, _⟩ := hs _ _ hx
    simp only [List.length_cons, List.length_append]
    omega

/-- What is written is nothing but one or two quotes, or has another character after these. -/
theorem leading (hq : q ≠ '\n') (hs : StartsPlain q spells) (h : Written q spells e cs) :
    (∃ k ≤ 2, e = List.replicate k q ∧ cs = e) ∨
      cs ≠ [] ∧ ∃ k ≤ 2, ∃ d t, d ≠ q ∧ e = List.replicate k q ++ d :: t := by
  induction h with
  | nil => exact Or.inl ⟨0, by omega, rfl, rfl⟩
  | quote hrun _ ih =>
    rcases ih with ⟨k, hk, he, hcs⟩ | ⟨_, k, hk, d, t, hd, he⟩ <;> subst he
    all_goals
      have hlt : k ≠ 2 := by
        rintro rfl
        exact hrun (by simp [List.replicate])
    · exact Or.inl ⟨k + 1, by omega, rfl, by rw [hcs]⟩
    · exact Or.inr ⟨List.cons_ne_nil _ _, k + 1, by omega, d, t, hd, rfl⟩
  | @lineEnd e cs _ _ => exact Or.inr ⟨List.cons_ne_nil _ _, 0, by omega, '\n', e, hq.symm, rfl⟩
  | @spelled _ e _ _ hx _ _ =>
    obtain ⟨d, t, rfl, hd, _⟩ := hs _ _ hx
    exact Or.inr ⟨List.cons_ne_nil _ _, 0, by omega, d, t ++ e, hd, rfl⟩

end Written

theorem readClosing_quotes {k : Nat} (hk : k ≤ 2) (hr : rest.head? ≠ some q) :
    readClosing q (List.replicate k q ++ q :: q :: q :: rest) =
      some (List.replicate k q, rest) := by
  obtain rfl | rfl | rfl : k = 0 ∨ k = 1 ∨ k = 2 := by omega
  all_goals
    rcases rest with _ | ⟨a, _ | ⟨b, rest⟩⟩ <;> simp_all [readClosing, List.replicate]

theorem readClosing_of_ne {k : Nat} (hk : k ≤ 2) (hd : c ≠ q) :
    readClosing q (List.replicate k q ++ c :: rest) = none := by
  obtain rfl | rfl | rfl : k = 0 ∨ k = 1 ∨ k = 2 := by omega
  all_goals
    rcases rest with _ | ⟨a, _ | ⟨b, _ | ⟨d, _ | ⟨e, rest⟩⟩⟩⟩ <;>
      simp [readClosing, List.replicate, hd]

/-- The closing quotes are found where the written text ends, and nowhere before. -/
theorem readClosing_of_written {spells : List Char → Char → Prop} {e : List Char} (hq : q ≠ '\n')
    (hs : StartsPlain q spells) (h : Written q spells e cs) (hr : rest.head? ≠ some q) :
    readClosing q (e ++ q :: q :: q :: rest) = none ∧ cs ≠ [] ∨
      readClosing q (e ++ q :: q :: q :: rest) = some (cs, rest) := by
  rcases h.leading hq hs with ⟨k, hk, he, hcs⟩ | ⟨hne, k, hk, d, t, hd, he⟩
  · rw [hcs, he]
    exact Or.inr (readClosing_quotes hk hr)
  · rw [he, List.append_assoc, List.cons_append]
    exact Or.inl ⟨readClosing_of_ne hk hd, hne⟩

/-- A reader of a text over several lines, by what one of its steps does. -/
structure ReadsLines (q : Char) (spells : List Char → Char → Prop)
    (read : Nat → List Char → Option (List Char × List Char)) : Prop where
  closing : ∀ fuel cs found, readClosing q cs = some found → read (fuel + 1) cs = some found
  quote : ∀ fuel rest text after, readClosing q (q :: rest) = none →
    read fuel rest = some (text, after) → read (fuel + 1) (q :: rest) = some (q :: text, after)
  lineEnd : ∀ fuel rest text after, readClosing q ('\n' :: rest) = none →
    read fuel rest = some (text, after) →
    read (fuel + 1) ('\n' :: rest) = some ('\n' :: text, after)
  spelled : ∀ fuel spelling x rest text after, spells spelling x →
    readClosing q (spelling ++ rest) = none → read fuel rest = some (text, after) →
    read (fuel + 1) (spelling ++ rest) = some (x :: text, after)

/-- Such a reader takes a step for each character of the text and one for the closing quotes. -/
theorem ReadsLines.of_written {spells : List Char → Char → Prop} {e : List Char}
    {read : Nat → List Char → Option (List Char × List Char)} (hread : ReadsLines q spells read)
    (hq : q ≠ '\n') (hs : StartsPlain q spells) (h : Written q spells e cs)
    (hr : rest.head? ≠ some q) (hfuel : cs.length < fuel) :
    read fuel (e ++ q :: q :: q :: rest) = some (cs, rest) := by
  induction fuel generalizing e cs with
  | zero => exact absurd hfuel (Nat.not_lt_zero _)
  | succ fuel ih =>
    -- Closing quotes are looked for first, so whether the text is over decides before its form.
    rcases readClosing_of_written hq hs h hr with ⟨hc, hne⟩ | hc
    · cases h with
      | nil => exact absurd rfl hne
      | quote _ h => exact hread.quote _ _ _ _ hc (ih h (Nat.lt_of_succ_lt_succ hfuel))
      | lineEnd h => exact hread.lineEnd _ _ _ _ hc (ih h (Nat.lt_of_succ_lt_succ hfuel))
      | spelled hx h =>
        rw [List.append_assoc] at hc ⊢
        exact hread.spelled _ _ _ _ _ _ hx hc (ih h (Nat.lt_of_succ_lt_succ hfuel))
    · exact hread.closing _ _ _ hc

/-! ### With escapes -/

theorem startsPlain_spells : StartsPlain '"' Spells := by
  intro spelling x h
  cases h with
  | plain hp hq _ => exact ⟨_, _, rfl, hq, hp⟩
  | short _ => exact ⟨_, _, rfl, by decide, by decide⟩
  | code _ => exact ⟨_, _, rfl, by decide, by decide⟩

theorem readBasicLines_of_spells (h : Spells spelling x)
    (hc : readClosing '"' (spelling ++ rest) = none)
    (hr : readBasicLines fuel rest = some (text, after)) :
    readBasicLines (fuel + 1) (spelling ++ rest) = some (x :: text, after) := by
  unfold readBasicLines
  simp only [hc]
  cases h with
  | plain hp hq hb =>
    rw [List.singleton_append]
    split <;> simp_all [isPlain]
  | @short e _ he =>
    rw [List.cons_append, List.singleton_append]
    have hu : e ≠ 'u' := by
      rintro rfl
      cases he
    have hU : e ≠ 'U' := by
      rintro rfl
      cases he
    split <;> simp_all
    next hne _ _ heq => exact absurd heq.2.symm (hne e rest heq.1.symm)
  | code hx =>
    simp only [List.cons_append, List.nil_append]
    simp [hx, hr]

theorem readsLines_basic : ReadsLines '"' Spells readBasicLines where
  closing fuel cs found hc := by
    unfold readBasicLines
    rw [hc]
  quote fuel rest text after hc hr := by
    unfold readBasicLines
    rw [hc]
    simp [isPlain, hr]
  lineEnd fuel rest text after hc hr := by
    unfold readBasicLines
    rw [hc]
    simp [hr]
  spelled _ _ _ _ _ _ h hc hr := readBasicLines_of_spells h hc hr

/-- A third quote in a row is escaped. -/
theorem not_prefix_escapeLines {seen : Nat} (cs : List Char) (h : seen ≤ 2) :
    ¬ List.replicate (3 - seen) '"' <+: escapeLines seen cs := by
  induction cs generalizing seen with
  | nil =>
    rw [escapeLines, List.prefix_nil, List.replicate_eq_nil_iff]
    omega
  | cons c cs ih =>
    obtain ⟨n, hn⟩ : ∃ n, 3 - seen = n + 1 := ⟨2 - seen, by omega⟩
    rw [hn, List.replicate_succ]
    unfold escapeLines
    split
    · split
      · have hrest : ¬ List.replicate (3 - (seen + 1)) '"' <+: escapeLines (seen + 1) cs :=
          ih (by omega)
        rw [show 3 - (seen + 1) = n by omega] at hrest
        exact fun hrun => hrest (List.cons_prefix_cons.mp hrun).2
      · simp
    · next hq =>
      split
      · next hc => simp [hc]
      · next hc =>
        obtain ⟨d, t, he, hd, _⟩ := startsPlain_spells _ _ (spells_escapeChar hq hc)
        simp [he, hd.symm]

/-- What is written for a text over several lines stands for it, also after some quotes. -/
theorem written_escapeLines {seen : Nat} (cs : List Char) (h : seen ≤ 2) :
    Written '"' Spells (escapeLines seen cs) cs := by
  induction cs generalizing seen with
  | nil => exact .nil
  | cons c cs ih =>
    unfold escapeLines
    split
    · next hc =>
      subst hc
      split
      · next hlt =>
        have hshort : List.replicate (3 - (seen + 1)) '"' <+: ['"', '"'] := by
          obtain rfl | rfl : seen = 0 ∨ seen = 1 := by omega
          · exact List.prefix_rfl
          · exact ⟨['"'], rfl⟩
        exact .quote (fun hrun => not_prefix_escapeLines cs (by omega) (hshort.trans hrun))
          (ih (by omega))
      · have hquote : Spells ['\\', '"'] '"' := .short rfl
        exact .spelled hquote (ih (by omega))
    · next hq =>
      split
      · next hc =>
        subst hc
        exact .lineEnd (ih (by omega))
      · next hc => exact .spelled (spells_escapeChar hq hc) (ih (by omega))

-- The escaped quote and the two after it look like three in a row, so only places where a character
-- of the text starts may be looked at for closing quotes.
example : escapeLines 0 ['"', '"', '"', '"', '"'] = ['"', '"', '\\', '"', '"', '"'] := rfl

/-! ### Without escapes -/

/-- The characters that stand for themselves, in a literal form. -/
def Literally (spelling : List Char) (x : Char) : Prop :=
  spelling = [x] ∧ isPlain x = true ∧ x ≠ '\''

theorem startsPlain_literally : StartsPlain '\'' Literally := by
  rintro _ x ⟨rfl, hp, hq⟩
  exact ⟨x, [], rfl, hq, hp⟩

theorem readsLines_literal : ReadsLines '\'' Literally readLiteralLines where
  closing fuel cs found hc := by
    unfold readLiteralLines
    rw [hc]
  quote fuel rest text after hc hr := by
    unfold readLiteralLines
    rw [hc]
    simp [isPlain, hr]
  lineEnd fuel rest text after hc hr := by
    unfold readLiteralLines
    rw [hc]
    simp [hr]
  spelled fuel spelling x rest text after h hc hr := by
    obtain ⟨rfl, hp, _⟩ := h
    unfold readLiteralLines
    simp only [hc]
    rw [List.singleton_append]
    split <;> simp_all [isPlain]

theorem written_self (hp : ∀ c ∈ cs, isPlain c = true ∨ c = '\n')
    (hrun : longestRun '\'' 0 cs ≤ 2) : Written '\'' Literally cs cs := by
  induction cs with
  | nil => exact .nil
  | cons c cs ih =>
    have h := ih (fun d hd => hp d (List.mem_cons_of_mem _ hd))
      (longestRun_le_cons.trans hrun)
    by_cases hq : c = '\''
    · subst hq
      refine .quote (fun hpre => ?_) h
      have hthree : 3 ≤ longestRun '\'' 0 ('\'' :: cs) :=
        le_longestRun_iff.mpr ((List.cons_prefix_cons.mpr ⟨rfl, hpre⟩).isInfix)
      omega
    · rcases hp c List.mem_cons_self with hc | rfl
      · exact .spelled ⟨rfl, hc, hq⟩ h
      · exact .lineEnd h

/-! ## All forms -/

theorem skipLineEnd_of_isPlain (h : isPlain c = true) : skipLineEnd (c :: rest) = c :: rest := by
  unfold skipLineEnd readLineEnd
  split <;> simp_all [isPlain]

/-- The line end after the opening quotes is skipped, and where there is none the text starts with
none of its own. -/
theorem skipLineEnd_opening {spells : List Char → Char → Prop} {e : List Char}
    (hs : StartsPlain q spells) (hq : isPlain q = true) (h : Written q spells e cs) :
    skipLineEnd (openingLineEnd cs ++ (e ++ q :: rest)) = e ++ q :: rest := by
  unfold openingLineEnd
  cases h with
  | nil => exact skipLineEnd_of_isPlain hq
  | lineEnd => rfl
  | quote =>
    split
    · rfl
    · exact skipLineEnd_of_isPlain hq
  | spelled hx =>
    split
    · rfl
    · obtain ⟨d, t, rfl, _, hd⟩ := hs _ _ hx
      exact skipLineEnd_of_isPlain hd

/-- What a text must be like for a form to say it. -/
def StringForm.Admits : StringForm → List Char → Prop
  | .basic, _ | .basicLines, _ => True
  | .literal, cs => ∀ c ∈ cs, isPlain c = true ∧ c ≠ '\''
  | .literalLines, cs => (∀ c ∈ cs, isPlain c = true ∨ c = '\n') ∧ longestRun '\'' 0 cs ≤ 2

theorem isPlain_of_not_isCode (h : isCode c = false) : isPlain c = true ∨ c = '\n' := by
  simp only [isCode, isPlain, Bool.or_eq_false_iff, Bool.and_eq_false_iff, Bool.or_eq_true,
    Bool.and_eq_true, decide_eq_false_iff_not, decide_eq_true_eq, beq_eq_false_iff_ne, beq_iff_eq,
    bne_iff_ne, bne_eq_false_iff_eq] at h ⊢
  obtain ⟨(h | h) | h, hd⟩ := h
  · exact Or.inl (Or.inr ⟨Char.not_lt.mp h, hd⟩)
  · exact Or.inl (Or.inl h)
  · exact Or.inr h

theorem not_mem_of_longestRun_eq_zero (h : longestRun c 0 cs = 0) : c ∉ cs := by
  intro hc
  obtain ⟨as, bs, rfl⟩ := List.append_of_mem hc
  have hone : 1 ≤ longestRun c 0 (as ++ c :: bs) :=
    le_longestRun_iff.mpr ⟨as, bs, by simp⟩
  omega

theorem StringForm.admits_choose (cs : List Char) : (StringForm.choose cs).Admits cs := by
  have hplain : cs.any isCode = false → ∀ c ∈ cs, isPlain c = true ∨ c = '\n' := fun h c hc =>
    isPlain_of_not_isCode (by simpa using List.any_eq_false.mp h c hc)
  unfold StringForm.choose
  dsimp only
  repeat' split
  · trivial
  · next h =>
    simp only [Bool.and_eq_true, Bool.not_eq_true', beq_iff_eq] at h
    obtain ⟨⟨hcodes, hrun⟩, hends⟩ := h
    intro c hc
    refine ⟨?_, fun heq => not_mem_of_longestRun_eq_zero hrun (heq ▸ hc)⟩
    rcases hplain hcodes c hc with h | rfl
    · exact h
    · simp [hc] at hends
  · trivial
  · next h =>
    simp only [Bool.and_eq_true, Bool.not_eq_true', decide_eq_true_eq] at h
    exact ⟨hplain h.1, h.2⟩
  · trivial
  · trivial

theorem readString_basic (hr : rest.head? ≠ some '"') :
    readString (quoteAs .basic cs ++ rest) = some (cs, rest) := by
  have hread := readBasic_escaped cs rest
  simp only [quoteAs, List.cons_append, List.append_assoc, List.nil_append]
  cases cs with
  | nil =>
    rw [List.flatMap_nil, List.nil_append] at hread ⊢
    unfold readString
    split <;> simp_all
  | cons c cs =>
    obtain ⟨d, t, he, hd, _⟩ := startsPlain_spells _ _ (spells_escapeBasic c)
    rw [List.flatMap_cons, he] at hread ⊢
    unfold readString
    split <;> simp_all

theorem readString_literal (h : ∀ c ∈ cs, isPlain c = true ∧ c ≠ '\'')
    (hr : rest.head? ≠ some '\'') : readString (quoteAs .literal cs ++ rest) = some (cs, rest) := by
  have hread := readLiteral_plain rest h
  simp only [quoteAs, List.cons_append, List.append_assoc, List.nil_append]
  unfold readString
  cases cs with
  | nil => split <;> simp_all
  | cons c cs =>
    have hc := (h c List.mem_cons_self).2
    split <;> simp_all

theorem readString_basicLines (hr : rest.head? ≠ some '"') :
    readString (quoteAs .basicLines cs ++ rest) = some (cs, rest) := by
  have h := written_escapeLines cs (Nat.zero_le 2)
  have hlen := h.length_le startsPlain_spells
  simp only [quoteAs, List.cons_append, List.append_assoc, List.nil_append, readString]
  rw [skipLineEnd_opening startsPlain_spells rfl h]
  refine readsLines_basic.of_written (by decide) startsPlain_spells h hr ?_
  simp only [List.length_append]
  omega

theorem readString_literalLines (h : Written '\'' Literally cs cs) (hr : rest.head? ≠ some '\'') :
    readString (quoteAs .literalLines cs ++ rest) = some (cs, rest) := by
  simp only [quoteAs, List.cons_append, List.append_assoc, List.nil_append, readString]
  rw [skipLineEnd_opening startsPlain_literally rfl h]
  refine readsLines_literal.of_written (by decide) startsPlain_literally h hr ?_
  simp only [List.length_append]
  omega

/-- A text is read back from every form that can say it. -/
theorem readString_quoteAs {form : StringForm} (h : form.Admits cs) (hq : rest.head? ≠ some '"')
    (ha : rest.head? ≠ some '\'') : readString (quoteAs form cs ++ rest) = some (cs, rest) := by
  cases form with
  | basic => exact readString_basic hq
  | literal => exact readString_literal h ha
  | basicLines => exact readString_basicLines hq
  | literalLines => exact readString_literalLines (written_self h.1 h.2) ha

end TieredMemory.Toml
