import Mathlib.Data.List.Nodup
import TieredMemory.Machine.Discovery
import TieredMemory.Proofs.Files.Path
import TieredMemory.Proofs.Text.Bytes

/-!
# What is found in a project

The list of the machines of a project is told by what stands in the directory, not by the order in
which the host lists it. Each file whose name is a text with the ending is found once, under what is
left of its name; nothing else is found. Two files never have the same machine, since the ending can
be put back, so the order of the names leaves no choice. In a tree of files the path of what is found
leads to its file, by way of the directory.
-/
set_option autoImplicit false

namespace TieredMemory.Machine

/-- The machines of a directory with the given entries. -/
structure Finds (directory : String) (entries : List ByteArray) (found : List Discovered) :
    Prop where
  ascending : found.Pairwise fun a b => Text.bytes a.name < Text.bytes b.name
  once : ∀ name, (name ++ fileEnding).toUTF8 ∈ entries →
    found.count ⟨name, Path.join directory (name ++ fileEnding)⟩ = 1
  nothingElse : ∀ d ∈ found, (d.name ++ fileEnding).toUTF8 ∈ entries ∧
    d.path = Path.join directory (d.name ++ fileEnding)

/-! ## Names of files -/

theorem withoutEnd?_eq_some_iff {ending cs front : List Char} :
    withoutEnd? ending cs = some front ↔ cs = front ++ ending := by
  unfold withoutEnd?
  split
  · next h =>
    obtain ⟨t, rfl⟩ := List.isSuffixOf_iff_suffix.mp h
    rw [Option.some.injEq, List.append_cancel_right_eq, List.length_append, Nat.add_sub_cancel,
      List.take_left]
  · next h =>
    simp only [reduceCtorEq, false_iff]
    rintro rfl
    exact h (List.isSuffixOf_iff_suffix.mpr (List.suffix_append front ending))

/-- A machine has the one name that its file is called by, the ending put aside. -/
theorem nameOfFile?_eq_some_iff {fileName : ByteArray} {name : String} :
    nameOfFile? fileName = some name ↔ fileName = (name ++ fileEnding).toUTF8 := by
  simp only [nameOfFile?, Option.bind_eq_some_iff, Option.map_eq_some_iff,
    Text.fromUTF8?_eq_some_iff, withoutEnd?_eq_some_iff]
  constructor
  · rintro ⟨s, rfl, front, hs, rfl⟩
    rw [← String.ofList_toList (s := s), hs, String.ofList_append, String.ofList_toList]
  · rintro rfl
    exact ⟨_, rfl, name.toList, String.toList_append, String.ofList_toList⟩

/-! ## The list -/

variable {directory : String} {entries listed : List ByteArray} {found : List Discovered}

theorem mem_ofListing {d : Discovered} :
    d ∈ ofListing directory entries ↔ (d.name ++ fileEnding).toUTF8 ∈ entries ∧
      d.path = Path.join directory (d.name ++ fileEnding) := by
  simp only [ofListing, List.mem_mergeSort, List.mem_filterMap, Option.map_eq_some_iff,
    nameOfFile?_eq_some_iff]
  constructor
  · rintro ⟨_, hmem, name, rfl, rfl⟩
    exact ⟨hmem, rfl⟩
  · rintro ⟨hmem, hpath⟩
    exact ⟨_, hmem, d.name, rfl, by rw [← hpath]⟩

theorem nodup_ofListing (distinct : entries.Nodup) : (ofListing directory entries).Nodup := by
  refine (List.mergeSort_perm _ _).nodup_iff.mpr (List.Nodup.filterMap ?_ distinct)
  intro f g d hf hg
  obtain ⟨name, hname, rfl⟩ := Option.map_eq_some_iff.mp hf
  obtain ⟨name', hname', heq⟩ := Option.map_eq_some_iff.mp hg
  rw [nameOfFile?_eq_some_iff] at hname hname'
  have hsame : name' = name := congrArg Discovered.name heq
  rw [hname, hname', hsame]

theorem sorted_ofListing :
    (ofListing directory entries).Pairwise fun a b => a.name ≤ b.name := by
  have htrans : ∀ a b c : Discovered, decide (a.name ≤ b.name) = true →
      decide (b.name ≤ c.name) = true → decide (a.name ≤ c.name) = true :=
    fun a b c hab hbc => decide_eq_true (le_trans (of_decide_eq_true hab) (of_decide_eq_true hbc))
  have htotal : ∀ a b : Discovered,
      (decide (a.name ≤ b.name) || decide (b.name ≤ a.name)) = true := by
    intro a b
    rw [Bool.or_eq_true, decide_eq_true_iff, decide_eq_true_iff]
    exact le_total a.name b.name
  exact (List.pairwise_mergeSort htrans htotal _).imp of_decide_eq_true

theorem eq_of_name_eq {a b : Discovered} (ha : a ∈ ofListing directory entries)
    (hb : b ∈ ofListing directory entries) (h : a.name = b.name) : a = b := by
  have hpath : a.path = b.path := by rw [(mem_ofListing.mp ha).2, (mem_ofListing.mp hb).2, h]
  cases a
  cases b
  rw [Discovered.mk.injEq]
  exact ⟨h, hpath⟩

/-- A name is found once only, so each is truly less than the next. -/
theorem ascending_ofListing (distinct : entries.Nodup) :
    (ofListing directory entries).Pairwise fun a b => Text.bytes a.name < Text.bytes b.name := by
  refine List.Pairwise.imp_of_mem ?_ (sorted_ofListing.and (nodup_ofListing distinct))
  rintro a b ha hb ⟨hle, hne⟩
  rw [← Text.lt_iff_bytes_lt]
  exact lt_of_le_of_ne hle fun hname => hne (eq_of_name_eq ha hb hname)

theorem finds_ofListing (directory : String) (distinct : entries.Nodup) :
    Finds directory entries (ofListing directory entries) where
  ascending := ascending_ofListing distinct
  once _ hmem := List.count_eq_one_of_mem (nodup_ofListing distinct) (mem_ofListing.mpr ⟨hmem, rfl⟩)
  nothingElse _ hd := mem_ofListing.mp hd

namespace Finds

variable {others : List Discovered}

theorem mem_iff (h : Finds directory entries found) {d : Discovered} :
    d ∈ found ↔ (d.name ++ fileEnding).toUTF8 ∈ entries ∧
      d.path = Path.join directory (d.name ++ fileEnding) := by
  refine ⟨h.nothingElse d, fun ⟨hmem, hpath⟩ => ?_⟩
  have hone := h.once d.name hmem
  rw [← hpath] at hone
  exact List.count_pos_iff.mp (by rw [hone]; exact Nat.one_pos)

theorem nodup (h : Finds directory entries found) : found.Nodup := by
  apply h.ascending.imp
  rintro a b hlt rfl
  exact List.lt_irrefl _ hlt

/-- What stands in the directory leaves no choice of the list, in whatever order it is told. -/
theorem unique (h : Finds directory entries found) (h' : Finds directory listed others)
    (hperm : listed.Perm entries) : others = found := by
  have hsame : others.Perm found := by
    rw [List.perm_ext_iff_of_nodup h'.nodup h.nodup]
    intro d
    rw [h.mem_iff, h'.mem_iff, hperm.mem_iff]
  refine List.Perm.eq_of_pairwise ?_ h'.ascending h.ascending hsame
  exact fun a b _ _ hab hba => absurd hba (List.lt_asymm hab)

end Finds

/-! ## Runs -/

/-- What the answer of a host to the question for the names in a directory makes of a search. -/
def foundIn (directory : String) :
    Except FileError (Option (List ByteArray)) → Except LoadError (List Discovered)
  | .ok (some fileNames) => .ok (ofListing directory fileNames)
  | .ok none => .ok []
  | .error cause => .error (.unreadable cause)

section Runs

variable {World : Type} {files : FileAccess (StateM World)} {project : String} {world next : World}

/-- A search asks one question and changes nothing else in the world. -/
theorem run_discover {answer : Except FileError (Option (List ByteArray))}
    (h : (files.list? (Path.join project directoryName)).run world = (answer, next)) :
    (discover files project).run world =
      (foundIn (Path.join project directoryName) answer, next) := by
  rw [discover, StateT.run_bind, h]
  obtain cause | _ | fileNames := answer <;> rfl

end Runs

/-- What is found in a project depends on the entries of its directory alone: whatever host lists
them, in whatever order and state, the list is the same. -/
theorem discovers_in_any_order (project : String) (distinct : entries.Nodup) :
    ∃ found, Finds (Path.join project directoryName) entries found ∧
      ∀ {World : Type} (files : FileAccess (StateM World)) (world next : World)
        (listed : List ByteArray), listed.Perm entries →
        (files.list? (Path.join project directoryName)).run world = (.ok (some listed), next) →
        (discover files project).run world = (.ok found, next) := by
  have hfinds := finds_ofListing (Path.join project directoryName) distinct
  refine ⟨_, hfinds, fun files world next listed hperm hlist => ?_⟩
  have hlisted := finds_ofListing (Path.join project directoryName) (hperm.nodup_iff.mpr distinct)
  rw [run_discover hlist, foundIn, hfinds.unique hlisted hperm]

/-- A host that knows one directory and lists it in the order of its state. -/
def oneDirectory : FileAccess (StateM (List ByteArray)) where
  read _ := pure (.error .missing)
  list? _ := fun listed => (.ok (some listed), listed)
  isDirectory _ := pure true
  makeDirectory _ := pure (.error .exists)
  write _ _ := pure (.error .isDirectory)
  workingDirectory := pure ""

/-- Names that hold the ending twice, are nothing but the ending, lack it, or are no text. -/
def manyNames : List ByteArray :=
  ["a.system.toml.system.toml".toUTF8, ".system.toml".toUTF8, "notes.txt".toUTF8,
    "a.system.toml".toUTF8, ⟨#[0xff]⟩ ++ ".system.toml".toUTF8]

theorem discovers_in_any_order_reversed :
    manyNames.Nodup ∧ ∃ found, Finds "systems" manyNames found ∧
      (discover oneDirectory "").run manyNames = (.ok found, manyNames) ∧
      (discover oneDirectory "").run manyNames.reverse = (.ok found, manyNames.reverse) := by
  have distinct : manyNames.Nodup := by decide +kernel
  have hpath : Path.join "" directoryName = "systems" := by decide +kernel
  obtain ⟨found, hfinds, hrun⟩ := discovers_in_any_order "" distinct
  refine ⟨distinct, found, hpath ▸ hfinds, ?_, ?_⟩
  · exact hrun oneDirectory manyNames manyNames manyNames (List.Perm.refl _) rfl
  · exact hrun oneDirectory manyNames.reverse manyNames.reverse manyNames.reverse
      (List.reverse_perm _) rfl

/-! ## Trees of files -/

variable {t : FileTree} {p : Place} {nodes : List (String × FileNode)}
  {above : List (String × FileNode)} {d : Discovered}

theorem isName_of_file {name : String} (h : '/' ∉ name.toList) :
    Path.IsName (name ++ fileEnding) := by
  have hlength : 12 ≤ (name ++ fileEnding).length := by
    rw [String.length_append]
    exact Nat.le_add_left 12 _
  have hne (short : String) (hshort : short.length < 12) : name ++ fileEnding ≠ short := by
    rintro rfl
    exact Nat.not_lt.mpr hlength hshort
  refine ⟨hne "" (by decide), ?_, hne "." (by decide), hne ".." (by decide)⟩
  rw [String.toList_append, List.mem_append, not_or]
  exact ⟨h, by decide⟩

/-- The path of a machine leads from the directory to its file. -/
theorem Finds.locate_path (h : Finds directory entries found) (hd : d ∈ found)
    (hp : t.locate directory = .ok p) (hname : '/' ∉ d.name.toList)
    (hpath : FileTree.checkPath d.path = .ok ()) :
    t.locate d.path = FileTree.step p (d.name ++ fileEnding) := by
  obtain ⟨_, heq⟩ := h.nothingElse d hd
  rw [heq] at hpath ⊢
  exact FileTree.locate_join hp (isName_of_file hname) hpath

theorem run_list?_access {path : String} (home : String)
    (h : t.locate path = .ok ⟨.directory nodes, above⟩) :
    ((FileTree.access home).list? path).run t =
      (.ok (some (nodes.map fun node => node.1.toUTF8)), t) := by
  have hlist : t.list? path = some (nodes.map Prod.fst) := by
    rw [FileTree.list?, h]
  show (Except.ok ((t.list? path).map (·.map String.toUTF8)), t) = _
  rw [hlist, Option.map_some, List.map_map]
  rfl

theorem exists_lookup_of_mem {name : String}
    (h : name.toUTF8 ∈ nodes.map fun node => node.1.toUTF8) :
    ∃ node, nodes.lookup name = some node := by
  obtain ⟨node, hnode, heq⟩ := List.mem_map.mp h
  have hname : node.1 = name := String.toByteArray_inj.mp heq
  rw [← Option.isSome_iff_exists, List.lookup_isSome_iff]
  exact ⟨node, hnode, beq_iff_eq.mpr hname.symm⟩

/-- In a tree of files the machines of a project are found, and the path of each leads to its file,
as long as the names and paths are such as the tree takes. -/
theorem discovers_in_tree {project : String} (home : String)
    (hp : t.locate (Path.join project directoryName) = .ok ⟨.directory nodes, above⟩)
    (distinct : (nodes.map Prod.fst).Nodup) :
    ∃ found, (discover (FileTree.access home) project).run t = (.ok found, t) ∧
      Finds (Path.join project directoryName) (nodes.map fun node => node.1.toUTF8) found ∧
      ∀ d ∈ found, '/' ∉ d.name.toList → FileTree.checkPath d.path = .ok () →
        FileTree.checkName (d.name ++ fileEnding) = .ok () →
        ∃ node, nodes.lookup (d.name ++ fileEnding) = some node ∧
          t.locate d.path = .ok ⟨node, (d.name ++ fileEnding, .directory nodes) :: above⟩ := by
  have hbytes : (nodes.map fun node => node.1.toUTF8).Nodup := by
    have hinjective : Function.Injective String.toUTF8 := fun _ _ => String.toByteArray_inj.mp
    have hmap := distinct.map hinjective
    rwa [List.map_map] at hmap
  have hfinds := finds_ofListing (Path.join project directoryName) hbytes
  refine ⟨_, run_discover (run_list?_access home hp), hfinds, fun d hd hname hpath hcheck => ?_⟩
  obtain ⟨node, hnode⟩ := exists_lookup_of_mem (hfinds.nothingElse d hd).1
  refine ⟨node, hnode, ?_⟩
  rw [hfinds.locate_path hd hp hname hpath]
  exact FileTree.step_of_lookup (isName_of_file hname) hcheck hnode

end TieredMemory.Machine
