import Mathlib.Data.List.Nodup

/-!
# Splitting and searching lists

A list that changes over from one kind of element to another has only one such place at its front,
and a list whose elements have distinct keys has one element for each of its keys.
-/
set_option autoImplicit false

namespace TieredMemory

variable {α κ : Type}

section Heads

variable {p : α → Bool} {s t x y : List α}

theorem takeWhile_append_of_head (hs : ∀ c ∈ s, p c = true) (hx : ∀ c ∈ x.head?, p c = false) :
    (s ++ x).takeWhile p = s := by
  rw [List.takeWhile_append_of_pos hs]
  cases x with
  | nil => rw [List.takeWhile_nil, List.append_nil]
  | cons c x => simp [hx c rfl]

theorem dropWhile_append_of_head (hs : ∀ c ∈ s, p c = true) (hx : ∀ c ∈ x.head?, p c = false) :
    (s ++ x).dropWhile p = x := by
  rw [List.dropWhile_append_of_pos hs]
  cases x with
  | nil => rfl
  | cons c x => simp [hx c rfl]

/-- A list is not split twice in a part of some elements and one that starts with another. -/
theorem append_inj_of_head (hs : ∀ c ∈ s, p c = true) (ht : ∀ c ∈ t, p c = true)
    (hx : ∀ c ∈ x.head?, p c = false) (hy : ∀ c ∈ y.head?, p c = false)
    (h : s ++ x = t ++ y) : s = t ∧ x = y := by
  have hst : s = t := by
    rw [← takeWhile_append_of_head hs hx, h, takeWhile_append_of_head ht hy]
  exact ⟨hst, List.append_cancel_left (hst ▸ h)⟩

end Heads

/-- Where no two elements have the same key, an element is all that has its key. -/
theorem filter_eq_singleton [BEq κ] [LawfulBEq κ] {key : α → κ} {l : List α}
    (h : (l.map key).Nodup) {x : α} (hx : x ∈ l) {k : κ} (hk : key x = k) :
    l.filter (key · == k) = [x] := by
  subst hk
  induction l with
  | nil => cases hx
  | cons y l ih =>
    rw [List.map_cons, List.nodup_cons] at h
    obtain rfl | hx := List.mem_cons.mp hx
    · have hnone : l.filter (key · == key x) = [] :=
        List.filter_eq_nil_iff.mpr fun z hz hn =>
          h.1 (List.mem_map.mpr ⟨z, hz, beq_iff_eq.mp hn⟩)
      rw [List.filter_cons, if_pos (beq_self_eq_true _), hnone]
    · have hne : ¬ (key y == key x) = true := fun hn =>
        h.1 (List.mem_map.mpr ⟨x, hx, (beq_iff_eq.mp hn).symm⟩)
      rw [List.filter_cons, if_neg hne, ih h.2 hx]

end TieredMemory
