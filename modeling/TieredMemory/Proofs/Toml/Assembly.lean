import TieredMemory.Toml.Reader

/-!
# Assembling a written document

A document has its own keys first and tables behind them, each with a header. Where no key repeats,
its lines are put together as just these keys and tables.
-/
set_option autoImplicit false

namespace TieredMemory.Toml

variable {key : String} {value : Value}

/-- The lines of a table's own keys. -/
def lineValues (pairs : List (String × Value)) : List Line :=
  pairs.map fun (key, value) => .assignment [] key value

def lineTable (table : String × List (String × Value)) : List Line :=
  .tableHeader [] table.1 :: lineValues table.2

/-- The entries of a table that has finished values only. -/
def finished (pairs : List (String × Value)) : Entries :=
  pairs.map fun (key, value) => (key, .value value)

def opened (table : String × List (String × Value)) : String × Node :=
  (table.1, .table .header (finished table.2))

theorem entriesToValues_eq_map (es : Entries) :
    entriesToValues es = es.map fun e => (e.1, e.2.toValue) := by
  induction es with
  | nil => rfl
  | cons e es ih => rw [entriesToValues, ih, List.map_cons]

theorem elementsToValues_eq_map (elements : List (List (String × Node))) :
    elementsToValues elements = elements.map fun es => .table (entriesToValues es) := by
  induction elements with
  | nil => rfl
  | cons es elements ih => rw [elementsToValues, ih, List.map_cons]

theorem Entries.find?_eq_none {es : Entries} (h : key ∉ es.map Prod.fst) : es.find? key = none := by
  rw [Entries.find?, List.lookup_eq_none_iff]
  intro e he
  have hne : key ≠ e.1 := fun heq => h (heq ▸ List.mem_map_of_mem he)
  simpa using hne

theorem Entries.insertNew?_eq_some {es : Entries} {node : Node} (h : key ∉ es.map Prod.fst) :
    es.insertNew? key node = some (es ++ [(key, node)]) := by
  rw [Entries.insertNew?, Entries.find?_eq_none h]
  rfl

theorem addLine?_assignment {d : Draft} (h : key ∉ d.current.map Prod.fst) :
    d.addLine? (.assignment [] key value) =
      some { d with current := d.current ++ [(key, .value value)] } := by
  rw [Draft.addLine?, Entries.insertKey?, Entries.insertNew?_eq_some h]
  rfl

/-- Keys that the opened table does not have yet are added at its end. -/
theorem foldlM_lineValues {d : Draft} {pairs : List (String × Value)}
    (h : (d.current.map Prod.fst ++ pairs.map Prod.fst).Nodup) :
    (lineValues pairs).foldlM Draft.addLine? d =
      some { d with current := d.current ++ finished pairs } := by
  induction pairs generalizing d with
  | nil => simp [lineValues, finished]
  | cons pair pairs ih =>
    have hkey : pair.1 ∉ d.current.map Prod.fst := by
      intro hm
      exact (List.nodup_append.mp h).2.2 _ hm _ (by simp) rfl
    have hrest := ih (d := { d with current := d.current ++ [(pair.1, .value pair.2)] })
      (by simpa using h)
    rw [lineValues, List.map_cons, List.foldlM_cons, addLine?_assignment hkey]
    simpa [lineValues, finished] using hrest

/-- A header puts the table before it back and opens an empty one. -/
theorem addLine?_tableHeader {d : Draft} {es : Entries} (hd : d.close? = some es)
    (h : key ∉ es.map Prod.fst) :
    d.addLine? (.tableHeader [] key) = some ⟨es, [], some ([], key, false)⟩ := by
  rw [Draft.addLine?, hd, Option.bind_some, Draft.openTable?, Entries.change?,
    Entries.find?_eq_none h]
  rfl

/-- A table is complete when it is put back, by the next header or at the end. -/
theorem foldlM_lineTable {d : Draft} {es : Entries} {table : String × List (String × Value)}
    (hd : d.close? = some es) (hname : table.1 ∉ es.map Prod.fst)
    (hkeys : (table.2.map Prod.fst).Nodup) :
    ∃ d', (lineTable table).foldlM Draft.addLine? d = some d' ∧
      d'.close? = some (es ++ [opened table]) := by
  refine ⟨⟨es, finished table.2, some ([], table.1, false)⟩, ?_, ?_⟩
  · rw [lineTable, List.foldlM_cons, addLine?_tableHeader hd hname]
    exact foldlM_lineValues (by simpa using hkeys)
  · simp only [Draft.close?, Entries.change?, Entries.insertNew?_eq_some hname]
    rfl

theorem foldlM_lineTables {d : Draft} {es : Entries}
    {tables : List (String × List (String × Value))} (hd : d.close? = some es)
    (hnames : (es.map Prod.fst ++ tables.map Prod.fst).Nodup)
    (hkeys : ∀ table ∈ tables, (table.2.map Prod.fst).Nodup) :
    ∃ d', (tables.flatMap lineTable).foldlM Draft.addLine? d = some d' ∧
      d'.close? = some (es ++ tables.map opened) := by
  induction tables generalizing d es with
  | nil => exact ⟨d, rfl, by simpa using hd⟩
  | cons table tables ih =>
    have hname : table.1 ∉ es.map Prod.fst := by
      intro hm
      exact (List.nodup_append.mp hnames).2.2 _ hm _ (by simp) rfl
    obtain ⟨d₁, hread, hclose⟩ := foldlM_lineTable hd hname (hkeys table List.mem_cons_self)
    obtain ⟨d₂, hread', hclose'⟩ := ih hclose (by simpa [opened] using hnames)
      fun other ho => hkeys other (List.mem_cons_of_mem _ ho)
    refine ⟨d₂, ?_, by simpa using hclose'⟩
    rw [List.flatMap_cons, List.foldlM_append, hread]
    exact hread'

/-- A document's own keys and its tables are put together again. -/
theorem assemble?_document {top : List (String × Value)}
    {tables : List (String × List (String × Value))}
    (hnames : (top.map Prod.fst ++ tables.map Prod.fst).Nodup)
    (hkeys : ∀ table ∈ tables, (table.2.map Prod.fst).Nodup) :
    assemble? (lineValues top ++ tables.flatMap lineTable) =
      some (.table (top ++ tables.map fun table => (table.1, .table table.2))) := by
  have htop : (lineValues top).foldlM Draft.addLine? Draft.empty =
      some { Draft.empty with current := finished top } :=
    foldlM_lineValues (by simpa [Draft.empty] using (List.nodup_append.mp hnames).1)
  have hfst : (finished top).map Prod.fst = top.map Prod.fst := by
    simp [finished, Function.comp_def]
  have hclose : { Draft.empty with current := finished top }.close? = some (finished top) := rfl
  obtain ⟨d, hread, hclose⟩ := foldlM_lineTables hclose (by rw [hfst]; exact hnames) hkeys
  rw [assemble?, List.foldlM_append, htop]
  simp only [Option.bind_eq_bind, Option.bind_some, hread, hclose]
  simp [entriesToValues_eq_map, opened, finished, Function.comp_def, Node.toValue]

end TieredMemory.Toml
