import Mathlib.Algebra.Group.Nat.Defs
import TieredMemory.Proofs.Toml.Lines
import TieredMemory.Proofs.Toml.Range

/-!
# Saving and reloading a machine

A machine is written as a document that is read back as the same machine, under every name, as long
as its numbers are signed 64-bit integers.
-/
set_option autoImplicit false

namespace TieredMemory

open Toml (Fits IsBare Prepends Says)

/-! ## The document of a machine -/

def BankedMemory.tomlPairs (b : BankedMemory) : List (String × Toml.Value) :=
  [("size", .integer b.size.toNat), ("banks", .integer b.banks.toNat),
    ("interleave", .integer b.interleave.toNat)]

namespace Machine

variable (machine : Machine)

def tomlPairs : List (String × Toml.Value) :=
  [("name", .string machine.name), ("num-pxn", .integer machine.pxns.toNat),
    ("pxn-pods", .integer machine.pods.toNat), ("pod-cores", .integer machine.cores.toNat),
    ("core-threads", .integer machine.coreThreads.toNat)]

def tomlTables : List (String × List (String × Toml.Value)) :=
  [("l1sp", [("size", .integer machine.l1spSize.toNat)]), ("l2sp", machine.l2sp.tomlPairs),
    ("dram", machine.dram.tomlPairs), ("ctrl", [("size", .integer machine.ctrlSize.toNat)])]

def tomlValue : Toml.Value :=
  .table (machine.tomlPairs ++ machine.tomlTables.map fun table => (table.1, .table table.2))

/-- The numbers of a machine, in the order in which they are written. -/
def numbers : List UInt64 :=
  [machine.pxns, machine.pods, machine.cores, machine.coreThreads, machine.l1spSize,
    machine.l2sp.size, machine.l2sp.banks, machine.l2sp.interleave, machine.dram.size,
    machine.dram.banks, machine.dram.interleave, machine.ctrlSize]

end Machine

namespace Toml

theorem Value.word?_toNat (w : UInt64) : (Value.integer w.toNat).word? = some w := by
  simp [Value.word?, UInt64.toNat_lt_size]

end Toml

theorem BankedMemory.ofToml?_tomlPairs (b : BankedMemory) :
    BankedMemory.ofToml? (.table b.tomlPairs) = some b := by
  simp [BankedMemory.ofToml?, Toml.Value.fields?, tomlPairs, List.lookup_cons,
    Toml.Value.word?_toNat, Toml.Value.orDefault]

namespace Machine

theorem sizeOfToml?_table (size : UInt64) :
    sizeOfToml? (.table [("size", .integer size.toNat)]) = some size := by
  simp [sizeOfToml?, Toml.Value.fields?, Toml.Value.word?_toNat]

/-- The document of a machine says the machine. -/
theorem ofTomlValue?_tomlValue (machine : Machine) :
    ofTomlValue? machine.tomlValue = some machine := by
  simp [ofTomlValue?, tomlValue, tomlPairs, tomlTables, Toml.Value.fields?, List.lookup_cons,
    Toml.Value.word?_toNat, Toml.Value.orDefault, sizeOfToml?_table,
    BankedMemory.ofToml?_tomlPairs, Toml.Value.text?]

end Machine

/-! ## Writing -/

def tooLarge (n : UInt64) : Bool := !decide (Fits n)

/-- The outcome of writing some numbers: the first that is too large is refused, and with none there
is a result with the property. -/
def Writes {α : Type} (outcome : Except TomlWriteError α) (numbers : List UInt64)
    (good : α → Prop) : Prop :=
  match numbers.find? tooLarge with
  | some n => outcome = .error (.tooLarge n)
  | none => ∃ a, outcome = .ok a ∧ good a

namespace Writes

variable {α β : Type} {outcome : Except TomlWriteError α} {f : α → Except TomlWriteError β}
  {numbers more : List UInt64} {good : α → Prop} {good' : β → Prop}

theorem pure {a : α} (h : good a) : Writes (Pure.pure a) [] good := ⟨a, rfl, h⟩

/-- What comes first is looked at first. -/
theorem bind (h : Writes outcome numbers good) (hf : ∀ a, good a → Writes (f a) more good') :
    Writes (outcome >>= f) (numbers ++ more) good' := by
  unfold Writes at h ⊢
  rw [List.find?_append]
  cases hn : numbers.find? tooLarge with
  | some n =>
    rw [hn] at h
    rw [h]
    rfl
  | none =>
    rw [hn] at h
    obtain ⟨a, rfl, ha⟩ := h
    exact hf a ha

end Writes

namespace Machine

open Toml (lineValues lineTable)

theorem writes_number {key : String} (hk : IsBare key) (n : UInt64) :
    Writes (tomlNumber key n) [n] (Prepends · [.assignment [] key (.integer n.toNat)]) := by
  unfold Writes tomlNumber
  by_cases hn : n.toNat < Toml.integerBound
  · have hfind : [n].find? tooLarge = none := by simp [tooLarge, Fits, hn]
    rw [hfind, if_pos hn]
    exact ⟨_, rfl, Toml.prepends_assignment hk (Toml.says_number hn)⟩
  · have hfind : [n].find? tooLarge = some n := by simp [tooLarge, Fits, hn]
    rw [hfind, if_neg hn]

theorem writes_banked {name : String} (hk : IsBare name) (b : BankedMemory) :
    Writes (tomlBanked name b) [b.size, b.banks, b.interleave]
      (Prepends · (lineTable (name, b.tomlPairs))) := by
  refine (writes_number (by decide) b.size).bind fun size hsize =>
    (writes_number (by decide) b.banks).bind fun banks hbanks =>
    (writes_number (by decide) b.interleave).bind fun interleave hinterleave =>
    .pure ?_
  exact (((Toml.prepends_header hk).append hsize).append hbanks).append hinterleave

theorem writes_size {name : String} (hk : IsBare name) (size : UInt64) :
    Writes (tomlSize name size) [size]
      (Prepends · (lineTable (name, [("size", .integer size.toNat)]))) := by
  refine (writes_number (by decide) size).bind fun text htext => .pure ?_
  exact (Toml.prepends_header hk).append htext

theorem writes_numbers (machine : Machine) :
    Writes machine.tomlNumbers machine.numbers
      (Prepends · (lineValues machine.tomlPairs.tail ++ machine.tomlTables.flatMap lineTable)) := by
  refine (writes_number (by decide) _).bind fun pxns hpxns =>
    (writes_number (by decide) _).bind fun pods hpods =>
    (writes_number (by decide) _).bind fun cores hcores =>
    (writes_number (by decide) _).bind fun coreThreads hcoreThreads =>
    (writes_size (by decide) _).bind fun l1sp hl1sp =>
    (writes_banked (by decide) _).bind fun l2sp hl2sp =>
    (writes_banked (by decide) _).bind fun dram hdram =>
    (writes_size (by decide) _).bind fun ctrl hctrl => .pure ?_
  exact ((((((hpxns.append hpods).append hcores).append hcoreThreads).append hl1sp).append
    hl2sp).append hdram).append hctrl

variable {machine : Machine} {n : UInt64}

theorem find?_tooLarge_eq_none_iff {numbers : List UInt64} :
    numbers.find? tooLarge = none ↔ ∀ n ∈ numbers, Fits n := by
  simp [tooLarge]

theorem toToml_of_tooLarge (h : machine.numbers.find? tooLarge = some n) :
    machine.toToml = .error (.tooLarge n) := by
  have hw := writes_numbers machine
  rw [Writes, h] at hw
  rw [toToml, hw]
  rfl

theorem assemble?_lines (machine : Machine) :
    Toml.assemble? (lineValues machine.tomlPairs ++ machine.tomlTables.flatMap lineTable) =
      some machine.tomlValue := by
  have hnames : ["name", "num-pxn", "pxn-pods", "pod-cores", "core-threads", "l1sp", "l2sp", "dram",
      "ctrl"].Nodup := by decide
  have hone : ["size"].Nodup := by decide
  have hbanked : ["size", "banks", "interleave"].Nodup := by decide
  refine Toml.assemble?_document hnames fun table ht => ?_
  simp only [tomlTables, List.mem_cons, List.not_mem_nil, or_false] at ht
  rcases ht with rfl | rfl | rfl | rfl
  · exact hone
  · exact hbanked
  · exact hbanked
  · exact hone

/-- What is written is read back as the same machine. -/
theorem exists_toToml (hfits : ∀ n ∈ machine.numbers, Fits n) :
    ∃ text, machine.toToml = .ok text ∧ ofToml? text = some machine := by
  have hw := writes_numbers machine
  rw [Writes, find?_tooLarge_eq_none_iff.mpr hfits] at hw
  obtain ⟨numbers, hnumbers, hlines⟩ := hw
  have hkey : IsBare "name" := by decide
  have hname := Toml.prepends_assignment hkey (Toml.says_quote machine.name)
  have hreads := (hname.append hlines).reads
  refine ⟨_, by rw [toToml, hnumbers]; rfl, ?_⟩
  have hread : Toml.read? (String.ofList
      ("name = ".toList ++ Toml.quote machine.name ++ '\n' :: numbers)) =
      some machine.tomlValue := by
    rw [← assemble?_lines machine]
    rw [List.append_assoc _ ['\n']] at hreads
    exact Toml.read?_of_reads hreads (by simp [Toml.byteOrderMark])
  rw [ofToml?, hread, Option.bind_some, ofTomlValue?_tomlValue]

end Machine

/-! ## Reading -/

namespace Toml

variable {v : Value} {w : UInt64} {keys : List String} {fields : List (Option Value)}

theorem Value.InRange.fits (h : v.InRange) (hw : v.word? = some w) : Fits w := by
  cases h with
  | @integer n _ high =>
    cases n with
    | ofNat n =>
      simp only [Value.word?] at hw
      split at hw
      · next hlt =>
        cases hw
        rw [Fits, UInt64.toNat_ofNat_of_lt' hlt]
        exact Int.ofNat_lt.mp high
      · cases hw
    | negSucc n => cases hw
  | _ => cases hw

theorem Value.InRange.fields? (h : v.InRange) (hf : v.fields? keys = some fields) :
    ∀ field ∈ fields, ∀ value ∈ field, value.InRange := by
  intro field hfield value hvalue
  cases h with
  | @array items h =>
    cases hf
    obtain ⟨i, _, rfl⟩ := List.mem_map.mp hfield
    exact h value (List.mem_of_getElem? hvalue)
  | @table entries h =>
    cases hf
    obtain ⟨key, _, rfl⟩ := List.mem_map.mp hfield
    obtain ⟨before, after, rfl, _⟩ := List.lookup_eq_some_iff.mp hvalue
    exact h (key, value) (List.mem_append_right _ List.mem_cons_self)
  | _ => cases hf

theorem fits_of_orDefault {f : Value → Option UInt64} {default : UInt64} {field : Option Value}
    (hd : Fits default) (hf : ∀ value ∈ field, ∀ w, f value = some w → Fits w)
    (hw : Value.orDefault default f field = some w) : Fits w := by
  cases field with
  | none =>
    cases hw
    exact hd
  | some value => exact hf value rfl w hw

end Toml

theorem BankedMemory.fits_of_ofToml? {v : Toml.Value} {b : BankedMemory} (h : v.InRange)
    (hb : ofToml? v = some b) : Fits b.size ∧ Fits b.banks ∧ Fits b.interleave := by
  obtain ⟨fields, hfields, hb⟩ := Option.bind_eq_some_iff.mp hb
  have hrange := h.fields? hfields
  split at hb
  · next size banks interleave =>
    obtain ⟨size', hsize, hb⟩ := Option.bind_eq_some_iff.mp hb
    obtain ⟨banks', hbanks, hb⟩ := Option.bind_eq_some_iff.mp hb
    obtain ⟨interleave', hinterleave, hb⟩ := Option.bind_eq_some_iff.mp hb
    cases hb
    exact ⟨(hrange (some size) (by simp) _ rfl).fits hsize,
      (hrange (some banks) (by simp) _ rfl).fits hbanks,
      Toml.fits_of_orDefault (by decide)
        (fun value hv w => (hrange interleave (by simp) value hv).fits) hinterleave⟩
  · cases hb

namespace Machine

theorem fits_of_sizeOfToml? {v : Toml.Value} {size : UInt64} (h : v.InRange)
    (hs : sizeOfToml? v = some size) : Fits size := by
  obtain ⟨fields, hfields, hs⟩ := Option.bind_eq_some_iff.mp hs
  have hrange := h.fields? hfields
  split at hs
  · next value => exact (hrange (some value) (by simp) _ rfl).fits hs
  · cases hs

/-- A machine that is read has only numbers that can be written. -/
theorem fits_of_ofToml? {text : String} {machine : Machine} (h : ofToml? text = some machine) :
    ∀ n ∈ machine.numbers, Fits n := by
  obtain ⟨value, hvalue, h⟩ := Option.bind_eq_some_iff.mp h
  obtain ⟨fields, hfields, h⟩ := Option.bind_eq_some_iff.mp h
  have hrange := (Toml.read?_inRange hvalue).fields? hfields
  split at h
  · next name pxns pods cores coreThreads l1sp l2sp dram ctrl =>
    obtain ⟨name', _, h⟩ := Option.bind_eq_some_iff.mp h
    obtain ⟨pxns', hpxns, h⟩ := Option.bind_eq_some_iff.mp h
    obtain ⟨pods', hpods, h⟩ := Option.bind_eq_some_iff.mp h
    obtain ⟨cores', hcores, h⟩ := Option.bind_eq_some_iff.mp h
    obtain ⟨coreThreads', hcoreThreads, h⟩ := Option.bind_eq_some_iff.mp h
    obtain ⟨l1sp', hl1sp, h⟩ := Option.bind_eq_some_iff.mp h
    obtain ⟨l2sp', hl2sp, h⟩ := Option.bind_eq_some_iff.mp h
    obtain ⟨dram', hdram, h⟩ := Option.bind_eq_some_iff.mp h
    obtain ⟨ctrl', hctrl, h⟩ := Option.bind_eq_some_iff.mp h
    cases h
    obtain ⟨hsize, hbanks, hinterleave⟩ :=
      BankedMemory.fits_of_ofToml? (hrange (some l2sp) (by simp) _ rfl) hl2sp
    obtain ⟨hsize', hbanks', hinterleave'⟩ :=
      BankedMemory.fits_of_ofToml? (hrange (some dram) (by simp) _ rfl) hdram
    intro n hn
    simp only [numbers, List.mem_cons, List.not_mem_nil, or_false] at hn
    rcases hn with rfl | rfl | rfl | rfl | rfl | rfl | rfl | rfl | rfl | rfl | rfl | rfl
    · exact (hrange (some pxns) (by simp) _ rfl).fits hpxns
    · exact (hrange (some pods) (by simp) _ rfl).fits hpods
    · exact (hrange (some cores) (by simp) _ rfl).fits hcores
    · exact Toml.fits_of_orDefault (by decide)
        (fun value hv w => (hrange coreThreads (by simp) value hv).fits) hcoreThreads
    · exact fits_of_sizeOfToml? (hrange (some l1sp) (by simp) _ rfl) hl1sp
    · exact hsize
    · exact hbanks
    · exact hinterleave
    · exact hsize'
    · exact hbanks'
    · exact hinterleave'
    · exact Toml.fits_of_orDefault (by decide)
        (fun value hv w => fits_of_sizeOfToml? (hrange ctrl (by simp) value hv)) hctrl
  · cases h

/-! ## Saving and reloading -/

theorem toToml_outcome (machine : Machine) :
    (∃ n ∈ machine.numbers, ¬ Fits n ∧ machine.toToml = .error (.tooLarge n)) ∨
    (∀ n ∈ machine.numbers, Fits n) ∧
      ∃ text, machine.toToml = .ok text ∧ ofToml? text = some machine := by
  cases hfind : machine.numbers.find? tooLarge with
  | some n =>
    have hlarge : ¬ Fits n := by simpa [tooLarge] using List.find?_some hfind
    exact Or.inl ⟨n, List.mem_of_find?_eq_some hfind, hlarge, toToml_of_tooLarge hfind⟩
  | none =>
    have hfits := find?_tooLarge_eq_none_iff.mp hfind
    exact Or.inr ⟨hfits, exists_toToml hfits⟩

/-- The template differs from a built-in machine in its name only. -/
theorem fits_template (name : String) :
    ∀ n ∈ ({ singleCore with name := name } : Machine).numbers, Fits n :=
  find?_tooLarge_eq_none_iff.mp (rfl : singleCore.numbers.find? tooLarge = none)

/-- A machine is refused exactly for a number that is no signed 64-bit integer, whatever its name,
and every other one has a text that is read back as the machine itself. So every machine that was
read can be saved again, and the template of every name can be read. -/
theorem saves_and_reloads (machine : Machine) :
    ((∃ e, machine.toToml = .error e) ↔ ∃ n ∈ machine.numbers, 2 ^ 63 ≤ n.toNat) ∧
    ((∀ n ∈ machine.numbers, n.toNat < 2 ^ 63) →
      ∃ text, machine.toToml = .ok text ∧ ofToml? text = some machine) ∧
    (∀ text, ofToml? text = some machine →
      ∃ saved, machine.toToml = .ok saved ∧ ofToml? saved = some machine) ∧
    ∀ name, ∃ text,
      template name = .ok text ∧ ofToml? text = some { singleCore with name := name } := by
  refine ⟨?_, exists_toToml, fun text h => exists_toToml (fits_of_ofToml? h),
    fun name => exists_toToml (fits_template name)⟩
  rcases toToml_outcome machine with ⟨n, hn, hlarge, h⟩ | ⟨hfits, text, h, _⟩
  · exact iff_of_true ⟨_, h⟩ ⟨n, hn, Nat.not_lt.mp hlarge⟩
  · refine iff_of_false ?_ fun ⟨n, hn, hlarge⟩ => Nat.not_lt.mpr hlarge (hfits n hn)
    rintro ⟨e, he⟩
    cases h.symm.trans he

end Machine

end TieredMemory
