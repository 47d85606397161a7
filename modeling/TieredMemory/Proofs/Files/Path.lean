import TieredMemory.Files.Tree

/-!
# Paths of entries

The path of an entry has the steps of its directory and then the entry's name, however the path of
the directory ends. So in a tree of files it leads from that directory to the entry.
-/
set_option autoImplicit false

namespace TieredMemory

namespace Path

/-- A name that an entry can have: no slash parts it, and it is no step to somewhere else. -/
structure IsName (name : String) : Prop where
  nonempty : name ≠ ""
  plain : '/' ∉ name.toList
  ne_here : name ≠ "."
  ne_above : name ≠ ".."

variable {directory name : String}

theorem segments_append (a b : String) : segments (a ++ "/" ++ b) = segments a ++ segments b := by
  have htext : (a ++ "/" ++ b).toList = a.toList ++ '/' :: b.toList := by
    rw [String.toList_append, String.toList_append, List.append_assoc]
    rfl
  rw [segments, htext, List.splitOn_append_cons_self, List.map_append]
  rfl

theorem steps_append (a b : String) : steps (a ++ "/" ++ b) = steps a ++ steps b := by
  rw [steps, segments_append, List.filter_append]
  rfl

theorem steps_empty : steps "" = [] := rfl

theorem steps_name (h : IsName name) : steps name = [name] := by
  rw [steps, segments, List.splitOn_eq_singleton h.plain, List.map_singleton, String.ofList_toList]
  simp [h.nonempty]

theorem endsWith_slash_iff : directory.endsWith "/" = true ↔ ∃ front, directory = front ++ "/" := by
  rw [String.endsWith, String.Slice.endsWith_string_iff, String.copy_toSlice]
  constructor
  · rintro ⟨front, h⟩
    refine ⟨String.ofList front, ?_⟩
    rw [← String.toList_inj, String.toList_append, String.toList_ofList, h]
  · rintro ⟨front, rfl⟩
    exact ⟨front.toList, String.toList_append.symm⟩

/-- The directory, a slash unless there is one, the name: the way down to the directory and one
step more. -/
theorem steps_join (h : IsName name) : steps (join directory name) = steps directory ++ [name] := by
  rw [← steps_name h, join]
  split
  · next hend =>
    rcases hend with rfl | hend
    · rw [steps_empty, List.nil_append, String.empty_append]
    · obtain ⟨front, rfl⟩ := endsWith_slash_iff.mp hend
      have hfront : steps (front ++ "/") = steps front := by
        rw [← String.append_empty (s := front ++ "/"), steps_append, steps_empty, List.append_nil]
      rw [steps_append, hfront]
  · rw [steps_append]

theorem isAbsolute_append {a : String} (h : a ≠ "") (b : String) :
    isAbsolute (a ++ b) = isAbsolute a := by
  have hne : a.toList ≠ [] := fun hnil => h (String.toList_eq_nil_iff.mp hnil)
  obtain ⟨c, cs, hcs⟩ := List.exists_cons_of_ne_nil hne
  rw [isAbsolute, isAbsolute, Bool.eq_iff_iff, String.startsWith_string_iff,
    String.startsWith_string_iff, String.toList_append, hcs]
  show ['/'] <+: c :: (cs ++ b.toList) ↔ ['/'] <+: c :: cs
  simp [List.cons_prefix_cons]

/-- An entry's path starts where that of its directory starts. -/
theorem isAbsolute_join (h : directory ≠ "") (name : String) :
    isAbsolute (join directory name) = isAbsolute directory := by
  unfold join
  split
  · exact isAbsolute_append h name
  · rw [String.append_assoc]
    exact isAbsolute_append h _

/-- A path that ends in a name does not end in a slash. -/
theorem endsWith_join (h : IsName name) : (join directory name).endsWith "/" = false := by
  have hlast (front : String) : (front ++ name).endsWith "/" = false := by
    rw [Bool.eq_false_iff]
    intro hend
    obtain ⟨rest, hrest⟩ := endsWith_slash_iff.mp hend
    obtain hnil | ⟨init, c, hc⟩ := List.eq_nil_or_concat name.toList
    · exact h.nonempty (String.toList_eq_nil_iff.mp hnil)
    · have hchars : front.toList ++ init ++ [c] = rest.toList ++ ['/'] := by
        rw [List.append_assoc, ← List.concat_eq_append, ← hc, ← String.toList_append, hrest,
          String.toList_append]
        rfl
      have hslash : c = '/' := (List.cons.inj (List.append_inj' hchars rfl).2).1
      refine h.plain ?_
      rw [hc, hslash, List.concat_eq_append]
      exact List.mem_append_right _ List.mem_cons_self
  unfold join
  split
  · exact hlast directory
  · exact hlast (directory ++ "/")

end Path

namespace FileTree

variable {t : FileTree} {directory name : String} {p : Place}

theorem ne_empty_of_checkPath (h : checkPath directory = .ok ()) : directory ≠ "" := by
  rintro rfl
  simp [checkPath] at h

theorem checkPath_of_locate (h : t.locate directory = .ok p) : checkPath directory = .ok () := by
  cases hcheck : checkPath directory with
  | ok => rfl
  | error e => simp [locate, walk, hcheck, bind, Except.bind] at h

theorem walk_of_locate (h : t.locate directory = .ok p) :
    t.walk directory (Path.steps directory) = .ok p := by
  unfold locate at h
  cases hwalk : t.walk directory (Path.steps directory) with
  | error e => simp [hwalk, bind, Except.bind] at h
  | ok q =>
    simp only [hwalk, bind, Except.bind] at h
    split at h
    · cases h
    · exact h

/-- One step more is taken from where the steps before it lead. -/
theorem walk_join (hdirectory : checkPath directory = .ok ())
    (hpath : checkPath (Path.join directory name) = .ok ()) (steps : List String) :
    t.walk (Path.join directory name) (steps ++ [name]) =
      t.walk directory steps >>= fun p => step p name := by
  have habsolute := Path.isAbsolute_join (ne_empty_of_checkPath hdirectory) name
  rw [walk, walk, hdirectory, hpath, habsolute]
  split <;> simp [List.foldlM_append]

/-- The path of a name in a directory leads to what the name stands for there. -/
theorem locate_join (h : t.locate directory = .ok p) (hname : Path.IsName name)
    (hpath : checkPath (Path.join directory name) = .ok ()) :
    t.locate (Path.join directory name) = step p name := by
  have hend : (Path.join directory name).endsWith "/" = false := Path.endsWith_join hname
  rw [locate, Path.steps_join hname, walk_join (checkPath_of_locate h) hpath, walk_of_locate h]
  rw [hend]
  exact bind_pure (step p name)

/-- A step by a name leads to what the name stands for. -/
theorem step_of_lookup {nodes above : List (String × FileNode)} {node : FileNode}
    (hname : Path.IsName name) (hcheck : checkName name = .ok ())
    (h : nodes.lookup name = some node) :
    step ⟨.directory nodes, above⟩ name = .ok ⟨node, (name, .directory nodes) :: above⟩ := by
  simp [step, FileNode.isDirectory, hname.ne_here, hname.ne_above, hcheck, Place.enter?,
    FileNode.child?, FileNode.entries, h, bind, Except.bind]

end FileTree

end TieredMemory
