import Mathlib.Data.List.SplitOn

/-!
# Lines of a text

A text that is put together from lines, each with its end, has these lines and an empty rest, as
long as no line holds an end of its own.
-/
set_option autoImplicit false

namespace TieredMemory.Text

def lines (s : String) : List (List Char) := s.toList.splitOn '\n'

theorem splitOn_lines {ls : List (List Char)} (h : ∀ line ∈ ls, '\n' ∉ line) :
    (ls.flatMap (· ++ ['\n'])).splitOn '\n' = ls ++ [[]] := by
  induction ls with
  | nil => rfl
  | cons line ls ih =>
    have hline := List.splitOn_eq_singleton (h line List.mem_cons_self)
    have hrest := ih fun l hl => h l (List.mem_cons_of_mem _ hl)
    rw [List.flatMap_cons, List.append_assoc, List.singleton_append,
      List.splitOn_append_cons_self, hline, hrest]
    rfl

theorem lines_join {ls : List String} (h : ∀ line ∈ ls, '\n' ∉ line.toList) :
    lines (String.join (ls.map (· ++ "\n"))) = ls.map String.toList ++ [[]] := by
  have hjoin : (String.join (ls.map (· ++ "\n"))).toList =
      (ls.map String.toList).flatMap (· ++ ['\n']) := by
    simp only [String.toList_join, List.flatMap_map, String.toList_append]
    rfl
  rw [lines, hjoin]
  refine splitOn_lines fun line hline => ?_
  obtain ⟨s, hs, rfl⟩ := List.mem_map.mp hline
  exact h s hs

end TieredMemory.Text
