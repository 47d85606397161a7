import TieredMemory.AddressMap.Description
import TieredMemory.Proofs.Layout
import TieredMemory.Proofs.Word.Digits

/-!
# Descriptions of address words

The text of an address tells all of it but who issued it: the names have one length, a coordinate is
named by its level, and the offset ends at the brace. A word is described by that text, behind the
word itself, so words that mean different things are never described alike.
-/
set_option autoImplicit false

namespace TieredMemory

namespace Address

/-- Equal in all but the core that issued them. -/
structure Alike (a b : Address) : Prop where
  mode : a.mode = b.mode
  tier : a.tier = b.tier
  pxn : a.pxn = b.pxn
  pod : a.pod = b.pod
  core : a.core = b.core
  offset : a.offset = b.offset

/-! ## Reading the text of an address -/

theorem mode_inj {a b : Mode} {x y : List Char}
    (h : a.name.toList ++ x = b.name.toList ++ y) : a = b ∧ x = y := by
  cases a <;> cases b <;> simp [Mode.name] at h ⊢ <;> exact h

theorem tier_inj {a b : Tier} {x y : List Char}
    (h : a.name.toList ++ x = b.name.toList ++ y) : a = b ∧ x = y := by
  cases a <;> cases b <;> simp [Tier.name] at h ⊢ <;> exact h

theorem toList_coordinateText (level : String) (v : Option UInt64) :
    (coordinateText level v).toList = numberBetween (level.toList ++ ['=']) [','] v := by
  cases v with
  | none => rfl
  | some v => simp [coordinateText, numberBetween]

/-- The end of the text: the offset and the brace. -/
def offsetEnding (offset : UInt64) : List Char :=
  '0' :: 'x' :: (Nat.toDigits 16 offset.toNat ++ ['\x7d'])

theorem toList_text (a : Address) : a.text.toList =
    '\x7b' :: (a.mode.name.toList ++ ',' :: (a.tier.name.toList ++ ',' ::
      (numberBetween "PXN=".toList [','] a.pxn ++ (numberBetween "POD=".toList [','] a.pod ++
        (numberBetween "CORE=".toList [','] a.core ++ offsetEnding a.offset))))) := by
  simp [text, toList_coordinateText, offsetEnding, Word.hexText, Word.hex]

section Following

variable (pod core : Option UInt64) (offset : UInt64) (x : List Char)

theorem follows_core : Follows "CORE=".toList [','] (offsetEnding offset ++ x) where
  opening := by simp [offsetEnding]
  digit := by simp

theorem follows_pod : Follows "POD=".toList [',']
    (numberBetween "CORE=".toList [','] core ++ (offsetEnding offset ++ x)) where
  opening := by cases core <;> simp [numberBetween, offsetEnding]
  digit := by simp

theorem follows_pxn : Follows "PXN=".toList [',']
    (numberBetween "POD=".toList [','] pod ++
      (numberBetween "CORE=".toList [','] core ++ (offsetEnding offset ++ x))) where
  opening := by cases pod <;> cases core <;> simp [numberBetween, offsetEnding]
  digit := by simp

end Following

theorem offsetEnding_inj {offset offset' : UInt64} {x y : List Char}
    (h : offsetEnding offset ++ x = offsetEnding offset' ++ y) : offset = offset' ∧ x = y := by
  simp only [offsetEnding, List.cons_append, List.append_assoc, List.cons.injEq, true_and,
    List.nil_append] at h
  obtain ⟨hn, hrest⟩ := toDigits_append_inj (by decide) (by decide) (by simp) (by simp) h
  exact ⟨UInt64.toNat_inj.mp hn, List.tail_eq_of_cons_eq hrest⟩

/-- A text that starts with that of an address tells the address and what follows. -/
theorem text_append_inj {a b : Address} {x y : List Char}
    (h : a.text.toList ++ x = b.text.toList ++ y) : a.Alike b ∧ x = y := by
  simp only [toList_text, List.cons_append, List.append_assoc] at h
  obtain ⟨hmode, h⟩ := mode_inj (List.tail_eq_of_cons_eq h)
  obtain ⟨htier, h⟩ := tier_inj (List.tail_eq_of_cons_eq h)
  obtain ⟨hpxn, h⟩ := numberBetween_append_inj (follows_pxn _ _ _ _) (follows_pxn _ _ _ _)
    (List.tail_eq_of_cons_eq h)
  obtain ⟨hpod, h⟩ := numberBetween_append_inj (follows_pod _ _ _) (follows_pod _ _ _) h
  obtain ⟨hcore, h⟩ := numberBetween_append_inj (follows_core _ _) (follows_core _ _) h
  obtain ⟨hoffset, hrest⟩ := offsetEnding_inj h
  exact ⟨⟨hmode, htier, hpxn, hpod, hcore, hoffset⟩, hrest⟩

theorem text_eq_iff (a b : Address) : a.text = b.text ↔ a.Alike b := by
  constructor
  · intro h
    exact (text_append_inj (x := []) (y := []) (by rw [h])).1
  · intro h
    rw [text, text, h.mode, h.tier, h.pxn, h.pod, h.core, h.offset]

end Address

namespace AddressMap

variable {m m' : AddressMap} {raw raw' : UInt64} {issuer issuer' : CoreId}

/-! ## Reading a description -/

/-- The description of a word, apart from the word itself in front. -/
def Describes (m : AddressMap) (raw : UInt64) (issuer : CoreId) (d : String) : Prop :=
  (m.describe raw issuer).outcome = .ok (Word.addressText raw ++ " " ++ d)

/-- A description starts with the word and its reading. -/
theorem exists_of_describe {out : String} (h : (m.describe raw issuer).outcome = .ok out) :
    ∃ tail, out = Word.addressText raw ++ " " ++ ((m.decode raw issuer).text ++ "\n" ++ tail) := by
  rw [describe, Logged.outcome_bind] at h
  obtain ⟨a, ha, h⟩ := exists_of_bind_eq_ok h
  obtain rfl : m.decode raw issuer = a := by
    cases ha
    rfl
  have hreading : reading raw (m.decode raw issuer) =
      Word.addressText raw ++ " " ++ ((m.decode raw issuer).text ++ "\n") := by
    simp [reading, String.append_assoc, toString]
  rw [hreading] at h
  split at h
  · rw [Logged.outcome_bind] at h
    obtain ⟨absolute, _, h⟩ := exists_of_bind_eq_ok h
    rw [Logged.outcome_bind] at h
    obtain ⟨resolved, _, h⟩ := exists_of_bind_eq_ok h
    cases h
    exact ⟨s!"  from {issuer.text}: {reading absolute resolved}",
      by simp only [String.append_assoc]⟩
  · cases h
    exact ⟨"", by simp⟩

theorem alike_of_describes {d : String} (h : m.Describes raw issuer d)
    (h' : m'.Describes raw' issuer' d) :
    (m.decode raw issuer).Alike (m'.decode raw' issuer') := by
  obtain ⟨tail, hd⟩ := exists_of_describe h
  obtain ⟨tail', hd'⟩ := exists_of_describe h'
  have heq := congrArg String.toList
    ((String.append_right_inj _).mp hd |>.symm.trans ((String.append_right_inj _).mp hd'))
  simp only [String.toList_append, List.append_assoc] at heq
  exact (Address.text_append_inj heq).1

/-- The words themselves have all their digits, and a blank behind. -/
theorem addressText_append_inj {d d' : String}
    (h : Word.addressText raw ++ " " ++ d = Word.addressText raw' ++ " " ++ d') : raw = raw' := by
  have hform : ∀ (w : UInt64) (s : String), (Word.addressText w ++ " " ++ s).toList =
      "0x".toList ++ ((List.replicate (16 - (Nat.toDigits 16 w.toNat).length) '0' ++
        Nat.toDigits 16 w.toNat) ++ ' ' :: s.toList) := fun w s => by
    simp [Word.addressText, Word.hexPadded, List.leftpad]
  have hchars := congrArg String.toList h
  rw [hform, hform] at hchars
  have hdigits := fun k n => hasDigits_padded (b := 16) (by decide) k n
  have hn := ((hdigits _ _).append_inj (by decide) (hdigits _ _) (by simp) (by simp)
    (List.append_cancel_left hchars)).1
  exact UInt64.toNat_inj.mp hn

/-- The texts of two addresses are the same exactly if the addresses are, but for their issuers. So
words of one description decode alike; and answers that are the same in full, with the word in
front, are about one word. -/
theorem descriptions_tell_apart :
    (∀ a b : Address, a.text = b.text ↔ a.Alike b) ∧
    ∀ (m m' : AddressMap) (raw raw' : UInt64) (issuer issuer' : CoreId),
      (∀ d, m.Describes raw issuer d → m'.Describes raw' issuer' d →
        (m.decode raw issuer).Alike (m'.decode raw' issuer')) ∧
      ∀ out, (m.describe raw issuer).outcome = .ok out →
        (m'.describe raw' issuer').outcome = .ok out →
          raw = raw' ∧ (m.decode raw issuer).Alike (m'.decode raw' issuer') := by
  refine ⟨Address.text_eq_iff, fun m m' raw raw' issuer issuer' =>
    ⟨fun d => alike_of_describes, fun out h h' => ?_⟩⟩
  obtain ⟨tail, rfl⟩ := exists_of_describe h
  obtain ⟨tail', hout⟩ := exists_of_describe h'
  obtain rfl := addressText_append_inj hout
  exact ⟨rfl, alike_of_describes h h'⟩

end AddressMap

end TieredMemory
