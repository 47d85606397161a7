import TieredMemory.Proofs.Toml.Assembly

/-!
# Numbers of a read document

Whatever a text says, every integer read from it is a signed 64-bit number: the reader refuses a
larger one where it stands, and assembling the lines only moves values about.
-/
set_option autoImplicit false

namespace TieredMemory.Toml

variable {cs rest : List Char} {key : String} {value : Value}

/-- Whether a word is a signed 64-bit number. -/
def Fits (n : UInt64) : Prop := n.toNat < integerBound

instance (n : UInt64) : Decidable (Fits n) := inferInstanceAs (Decidable (_ < _))

/-- Every integer in a value lies within signed 64 bits. -/
inductive Value.InRange : Value → Prop where
  | string (text : String) : InRange (.string text)
  | integer {n : Int} (low : -(integerBound : Int) ≤ n) (high : n < integerBound) :
    InRange (.integer n)
  | float : InRange .float
  | boolean (value : Bool) : InRange (.boolean value)
  | moment : InRange .moment
  | array {items : List Value} (h : ∀ item ∈ items, InRange item) : InRange (.array items)
  | table {entries : List (String × Value)} (h : ∀ e ∈ entries, InRange e.2) :
    InRange (.table entries)

inductive Node.InRange : Node → Prop where
  | value {value : Value} (h : value.InRange) : InRange (.value value)
  | table (origin : Origin) {entries : List (String × Node)} (h : ∀ e ∈ entries, InRange e.2) :
    InRange (.table origin entries)
  | tables {elements : List (List (String × Node))}
    (h : ∀ entries ∈ elements, ∀ e ∈ entries, InRange e.2) : InRange (.tables elements)

def Entries.InRange (es : Entries) : Prop := ∀ e ∈ es, e.2.InRange

namespace Node.InRange

variable {origin : Origin} {es es' inner : Entries} {others : List Entries}

theorem entries (h : (Node.table origin es).InRange) : es.InRange := by
  cases h with
  | table _ h => exact h

theorem last (h : (Node.tables (es :: others)).InRange) : es.InRange := by
  cases h with
  | tables h => exact h es List.mem_cons_self

theorem cons (hes : es.InRange) (h : (Node.tables others).InRange) :
    (Node.tables (es :: others)).InRange := by
  cases h with
  | tables h =>
    refine .tables fun entries hmem => ?_
    rcases List.mem_cons.mp hmem with rfl | hmem
    · exact hes
    · exact h entries hmem

theorem exchange (h : (Node.tables (es :: others)).InRange) (hi : es'.InRange) :
    (Node.tables (es' :: others)).InRange := by
  cases h with
  | tables h => exact cons hi (.tables fun entries hmem => h entries (List.mem_cons_of_mem _ hmem))

end Node.InRange

/-! ## From entries to values -/

theorem Value.InRange.of_entries {es : Entries} (h : ∀ e ∈ es, e.2.toValue.InRange) :
    (Value.table (entriesToValues es)).InRange := by
  refine .table fun e he => ?_
  rw [entriesToValues_eq_map, List.mem_map] at he
  obtain ⟨e', he', rfl⟩ := he
  exact h e' he'

theorem Node.InRange.toValue {node : Node} (h : node.InRange) : node.toValue.InRange := by
  induction h with
  | value h =>
    rw [Node.toValue]
    exact h
  | table _ _ ih =>
    rw [Node.toValue]
    exact .of_entries ih
  | tables _ ih =>
    rw [Node.toValue, elementsToValues_eq_map]
    refine .array fun item hitem => ?_
    obtain ⟨es, hes, rfl⟩ := List.mem_map.mp (List.mem_reverse.mp hitem)
    exact .of_entries (ih es hes)

theorem Entries.InRange.toValue {es : Entries} (h : es.InRange) :
    (Value.table (entriesToValues es)).InRange := .of_entries fun e he => (h e he).toValue

/-! ## Changing entries -/

namespace Entries

variable {es es' : Entries} {node : Node}

theorem inRange_nil : Entries.InRange [] := fun _ h => absurd h List.not_mem_nil

theorem InRange.of_find? (h : es.InRange) (hf : es.find? key = some node) : node.InRange := by
  obtain ⟨before, after, rfl, _⟩ := List.lookup_eq_some_iff.mp hf
  exact h (key, node) (List.mem_append_right _ List.mem_cons_self)

theorem InRange.append (h : es.InRange) (hn : node.InRange) :
    Entries.InRange (es ++ [(key, node)]) := by
  intro e he
  rcases List.mem_append.mp he with he | he
  · exact h e he
  · rw [List.mem_singleton.mp he]
    exact hn

theorem InRange.insert (h : es.InRange) (hn : node.InRange) : (es.insert key node).InRange := by
  unfold Entries.insert
  split
  · intro e he
    obtain ⟨e', he', rfl⟩ := List.mem_map.mp he
    split
    · exact hn
    · exact h e' he'
  · exact h.append hn

theorem InRange.erase (h : es.InRange) : (es.erase key).InRange :=
  fun e he => h e (List.mem_filter.mp he).1

theorem InRange.insertNew? (h : es.InRange) (hn : node.InRange)
    (hi : es.insertNew? key node = some es') : es'.InRange := by
  unfold Entries.insertNew? at hi
  split at hi
  · cases hi
  · cases hi
    exact h.append hn

theorem InRange.insertDotted? {origin : Origin} {path : List String} (h : es.InRange)
    (hn : node.InRange) (hi : es.insertDotted? key node origin path = some es') :
    es'.InRange := by
  induction path generalizing es es' origin with
  | nil =>
    rw [Entries.insertDotted?] at hi
    split at hi
    · exact h.insertNew? hn hi
    · cases hi
  | cons part path ih =>
    rw [Entries.insertDotted?] at hi
    split at hi
    · obtain ⟨inner, hinner, hi⟩ := Option.bind_eq_some_iff.mp hi
      cases hi
      exact h.insert (.table _ (ih inRange_nil hinner))
    · cases hi
    · next hf =>
      obtain ⟨inner, hinner, hi⟩ := Option.bind_eq_some_iff.mp hi
      cases hi
      exact h.insert (.table _ (ih (h.of_find? hf).entries hinner))
    · next hf =>
      obtain ⟨inner, hinner, hi⟩ := Option.bind_eq_some_iff.mp hi
      cases hi
      have hnode := h.of_find? hf
      exact h.insert (hnode.exchange (ih hnode.last hinner))
    · cases hi
    · cases hi

theorem InRange.insertKey? {path : List String} (h : es.InRange) (hn : node.InRange)
    (hi : es.insertKey? path key node = some es') : es'.InRange := by
  unfold Entries.insertKey? at hi
  split at hi
  · exact h.insertNew? hn hi
  · exact h.insertDotted? hn hi

/-- Changing the table at the end of a path keeps what the change there keeps. -/
theorem InRange.change? {α : Type} {f : Entries → Option (α × Entries)} {path : List String} {a : α}
    (Good : α → Prop)
    (hf : ∀ es a es', es.InRange → f es = some (a, es') → Good a ∧ es'.InRange)
    (h : es.InRange) (hc : es.change? f path = some (a, es')) : Good a ∧ es'.InRange := by
  induction path generalizing es es' with
  | nil => exact hf es a es' h hc
  | cons part path ih =>
    rw [Entries.change?] at hc
    split at hc
    · obtain ⟨⟨b, inner⟩, hinner, hc⟩ := Option.bind_eq_some_iff.mp hc
      cases hc
      obtain ⟨hgood, hr⟩ := ih inRange_nil hinner
      exact ⟨hgood, h.insert (.table _ hr)⟩
    · next hfind =>
      obtain ⟨⟨b, inner⟩, hinner, hc⟩ := Option.bind_eq_some_iff.mp hc
      cases hc
      obtain ⟨hgood, hr⟩ := ih (h.of_find? hfind).entries hinner
      exact ⟨hgood, h.insert (.table _ hr)⟩
    · next hfind =>
      obtain ⟨⟨b, inner⟩, hinner, hc⟩ := Option.bind_eq_some_iff.mp hc
      cases hc
      have hnode := h.of_find? hfind
      obtain ⟨hgood, hr⟩ := ih hnode.last hinner
      exact ⟨hgood, h.insert (hnode.exchange hr)⟩
    · cases hc
    · cases hc

end Entries

/-! ## Reading values -/

theorem signed64?_inRange {negative : Bool} {size : Nat} {n : Int}
    (h : signed64? negative size = some n) : (Value.integer n).InRange := by
  unfold signed64? at h
  split at h <;> split at h <;> cases h
  · exact .integer (by omega) (by unfold integerBound; omega)
  · exact .integer (by unfold integerBound; omega) (by omega)

theorem readBased_inRange {base : Nat} {isDigit : Char → Bool} {n : Int}
    (h : readBased base isDigit cs = some (n, rest)) : (Value.integer n).InRange := by
  obtain ⟨⟨digits, after⟩, _, h⟩ := Option.bind_eq_some_iff.mp h
  obtain ⟨m, hm, h⟩ := Option.bind_eq_some_iff.mp h
  cases h
  exact signed64?_inRange hm

theorem readInteger_inRange {n : Int} (h : readInteger cs = some (n, rest)) :
    (Value.integer n).InRange := by
  unfold readInteger at h
  split at h
  · exact readBased_inRange h
  · exact readBased_inRange h
  · exact readBased_inRange h
  · obtain ⟨⟨negative, digits, after⟩, _, h⟩ := Option.bind_eq_some_iff.mp h
    obtain ⟨m, hm, h⟩ := Option.bind_eq_some_iff.mp h
    cases h
    exact signed64?_inRange hm

theorem readNumber_inRange (h : readNumber cs = some (value, rest)) : value.InRange := by
  unfold readNumber at h
  split at h
  · cases h
    exact .moment
  · split at h
    · cases h
      exact .float
    · obtain ⟨⟨n, after⟩, hn, h⟩ := Option.map_eq_some_iff.mp h
      cases h
      exact readInteger_inRange hn

/-- What every step of a run keeps holds at its end. -/
theorem foldlM_keeps {α β : Type} {f : β → α → Option β} {Good : β → Prop} {l : List α} {b b' : β}
    (hstep : ∀ a ∈ l, ∀ b b', Good b → f b a = some b' → Good b') (hb : Good b)
    (h : l.foldlM f b = some b') : Good b' := by
  induction l generalizing b with
  | nil =>
    cases h
    exact hb
  | cons a l ih =>
    obtain ⟨b₁, h₁, h⟩ := Option.bind_eq_some_iff.mp h
    exact ih (fun a ha => hstep a (List.mem_cons_of_mem _ ha))
      (hstep a List.mem_cons_self _ _ hb h₁) h

theorem inlineTable?_inRange {pairs : List (List String × String × Value)}
    (h : ∀ pair ∈ pairs, pair.2.2.InRange) (ht : inlineTable? pairs = some value) :
    value.InRange := by
  obtain ⟨es, hes, rfl⟩ := Option.map_eq_some_iff.mp ht
  have hgood : Entries.InRange es := by
    refine foldlM_keeps (fun pair hp es es' hes hi => ?_) Entries.inRange_nil hes
    exact Entries.InRange.insertKey? hes (.value (h pair hp)) hi
  exact hgood.toValue

/-- What reading with so many steps gives, for values, the items of arrays and the pairs of inline
tables: they are read in one recursion. -/
structure ReadsInRange (fuel : Nat) : Prop where
  value : ∀ depth cs value rest, readValue fuel depth cs = some (value, rest) → value.InRange
  items : ∀ depth cs items rest, readItems fuel depth cs = some (items, rest) →
    ∀ item ∈ items, item.InRange
  pairs : ∀ depth cs pairs rest, readPairs fuel depth cs = some (pairs, rest) →
    ∀ pair ∈ pairs, pair.2.2.InRange

namespace ReadsInRange

variable {fuel depth : Nat}

theorem of_inlineTable? {pairs : List (List String × String × Value)} {after : List Char}
    (hpairs : ∀ pair ∈ pairs, pair.2.2.InRange)
    (h : (inlineTable? pairs).bind (fun table => some (table, after)) = some (value, rest)) :
    value.InRange := by
  obtain ⟨table, htable, h⟩ := Option.bind_eq_some_iff.mp h
  cases h
  exact inlineTable?_inRange hpairs htable

theorem value_succ (ih : ReadsInRange fuel)
    (h : readValue (fuel + 1) depth cs = some (value, rest)) : value.InRange := by
  unfold readValue at h
  split at h
  · cases h
    exact .boolean true
  · cases h
    exact .boolean false
  · obtain ⟨⟨text, after⟩, _, h⟩ := Option.map_eq_some_iff.mp h
    cases h
    exact .string _
  · obtain ⟨⟨text, after⟩, _, h⟩ := Option.map_eq_some_iff.mp h
    cases h
    exact .string _
  · split at h
    · cases h
    · obtain ⟨⟨items, after⟩, hitems, h⟩ := Option.map_eq_some_iff.mp h
      cases h
      exact .array (ih.items _ _ _ _ hitems)
  · split at h
    · cases h
    · dsimp only at h
      split at h
      · exact of_inlineTable? (fun pair hp => absurd hp List.not_mem_nil) h
      · obtain ⟨⟨pairs, after⟩, hpairs, h⟩ := Option.bind_eq_some_iff.mp h
        exact of_inlineTable? (ih.pairs _ _ _ _ hpairs) h
  · exact readNumber_inRange h

theorem items_succ {items : List Value} (ih : ReadsInRange fuel)
    (h : readItems (fuel + 1) depth cs = some (items, rest)) : ∀ item ∈ items, item.InRange := by
  obtain ⟨gap, _, h⟩ := Option.bind_eq_some_iff.mp h
  split at h
  · cases h
    exact fun item hi => absurd hi List.not_mem_nil
  · obtain ⟨⟨item, after⟩, hitem, h⟩ := Option.bind_eq_some_iff.mp h
    obtain ⟨gap, _, h⟩ := Option.bind_eq_some_iff.mp h
    have hhead := ih.value _ _ _ _ hitem
    split at h
    · obtain ⟨⟨others, after⟩, hothers, h⟩ := Option.bind_eq_some_iff.mp h
      cases h
      exact List.forall_mem_cons.mpr ⟨hhead, ih.items _ _ _ _ hothers⟩
    · cases h
      exact List.forall_mem_singleton.mpr hhead
    · cases h

theorem pairs_succ {pairs : List (List String × String × Value)} (ih : ReadsInRange fuel)
    (h : readPairs (fuel + 1) depth cs = some (pairs, rest)) :
    ∀ pair ∈ pairs, pair.2.2.InRange := by
  obtain ⟨⟨path, key, after⟩, _, h⟩ := Option.bind_eq_some_iff.mp h
  obtain ⟨after, _, h⟩ := Option.bind_eq_some_iff.mp h
  obtain ⟨⟨value, after⟩, hvalue, h⟩ := Option.bind_eq_some_iff.mp h
  have hhead := ih.value _ _ _ _ hvalue
  dsimp only at h
  split at h
  · obtain ⟨⟨others, after⟩, hothers, h⟩ := Option.bind_eq_some_iff.mp h
    cases h
    exact List.forall_mem_cons.mpr ⟨hhead, ih.pairs _ _ _ _ hothers⟩
  · cases h
    exact List.forall_mem_singleton.mpr hhead
  · cases h

end ReadsInRange

theorem readsInRange (fuel : Nat) : ReadsInRange fuel := by
  induction fuel with
  | zero =>
    refine ⟨fun _ _ _ _ h => ?_, fun _ _ _ _ h => ?_, fun _ _ _ _ h => ?_⟩
    all_goals cases h
  | succ fuel ih =>
    exact ⟨fun _ _ _ _ => ih.value_succ, fun _ _ _ _ => ih.items_succ, fun _ _ _ _ => ih.pairs_succ⟩

/-! ## Lines -/

def Line.InRange : Line → Prop
  | .assignment _ _ value => value.InRange
  | .tableHeader _ _ | .arrayHeader _ _ => True

theorem readHeader_inRange {line : Line} (h : readHeader cs = some (line, rest)) :
    line.InRange := by
  unfold readHeader at h
  split at h
  · obtain ⟨⟨path, key, after⟩, _, h⟩ := Option.bind_eq_some_iff.mp h
    obtain ⟨after, _, h⟩ := Option.bind_eq_some_iff.mp h
    obtain ⟨after, _, h⟩ := Option.bind_eq_some_iff.mp h
    cases h
    trivial
  · obtain ⟨⟨path, key, after⟩, _, h⟩ := Option.bind_eq_some_iff.mp h
    obtain ⟨after, _, h⟩ := Option.bind_eq_some_iff.mp h
    cases h
    trivial
  · cases h

theorem readAssignment_inRange {fuel : Nat} {line : Line}
    (h : readAssignment fuel cs = some (line, rest)) : line.InRange := by
  obtain ⟨⟨path, key, after⟩, _, h⟩ := Option.bind_eq_some_iff.mp h
  obtain ⟨after, _, h⟩ := Option.bind_eq_some_iff.mp h
  obtain ⟨⟨value, after⟩, hvalue, h⟩ := Option.bind_eq_some_iff.mp h
  cases h
  exact (readsInRange fuel).value _ _ _ _ hvalue

theorem readLines_inRange {fuel : Nat} {lines : List Line} (h : readLines fuel cs = some lines) :
    ∀ line ∈ lines, line.InRange := by
  induction fuel generalizing cs lines with
  | zero => cases h
  | succ fuel ih =>
    unfold readLines at h
    split at h
    · cases h
      exact fun line hl => absurd hl List.not_mem_nil
    · obtain ⟨after, _, h⟩ := Option.bind_eq_some_iff.mp h
      exact ih h
    · exact ih h
    · obtain ⟨after, _, h⟩ := Option.bind_eq_some_iff.mp h
      exact ih h
    · obtain ⟨⟨line, after⟩, hline, h⟩ := Option.bind_eq_some_iff.mp h
      obtain ⟨after, _, h⟩ := Option.bind_eq_some_iff.mp h
      obtain ⟨others, hothers, h⟩ := Option.bind_eq_some_iff.mp h
      cases h
      exact List.forall_mem_cons.mpr ⟨readHeader_inRange hline, ih hothers⟩
    · obtain ⟨⟨line, after⟩, hline, h⟩ := Option.bind_eq_some_iff.mp h
      obtain ⟨after, _, h⟩ := Option.bind_eq_some_iff.mp h
      obtain ⟨others, hothers, h⟩ := Option.bind_eq_some_iff.mp h
      cases h
      exact List.forall_mem_cons.mpr ⟨readAssignment_inRange hline, ih hothers⟩

/-! ## Assembling -/

structure Draft.InRange (d : Draft) : Prop where
  root : d.root.InRange
  current : d.current.InRange

namespace Draft

variable {d d' : Draft} {es root : Entries} {path : List String}

theorem InRange.close? (h : d.InRange) (hc : d.close? = some es) : es.InRange := by
  unfold Draft.close? at hc
  split at hc
  · cases hc
    exact h.current
  · obtain ⟨⟨_, es⟩, hchange, rfl⟩ := Option.map_eq_some_iff.mp hc
    refine (h.root.change? (fun _ => True) (fun es a es' hes hf => ?_) hchange).2
    obtain ⟨es', hi, hf⟩ := Option.map_eq_some_iff.mp hf
    cases hf
    exact ⟨trivial, hes.insertNew? (.table _ h.current) hi⟩
  · obtain ⟨⟨_, es⟩, hchange, rfl⟩ := Option.map_eq_some_iff.mp hc
    refine (h.root.change? (fun _ => True) (fun es a es' hes hf => ?_) hchange).2
    split at hf
    · cases hf
      exact ⟨trivial, hes.insert (.cons h.current (.tables fun _ hm => absurd hm List.not_mem_nil))⟩
    · next hfind =>
      cases hf
      exact ⟨trivial, hes.insert (.cons h.current (hes.of_find? hfind))⟩
    · cases hf

theorem openTable?_inRange (h : root.InRange) (ho : openTable? path key root = some d) :
    d.InRange := by
  obtain ⟨⟨current, es⟩, hc, rfl⟩ := Option.map_eq_some_iff.mp ho
  obtain ⟨hcurrent, hes⟩ := h.change? Entries.InRange (fun es a es' hes hf => by
    split at hf
    · cases hf
      exact ⟨Entries.inRange_nil, hes⟩
    · next hfind =>
      cases hf
      exact ⟨(hes.of_find? hfind).entries, hes.erase⟩
    · cases hf) hc
  exact ⟨hes, hcurrent⟩

theorem openElement?_inRange (h : root.InRange) (ho : openElement? path key root = some d) :
    d.InRange := by
  obtain ⟨⟨_, es⟩, hc, rfl⟩ := Option.map_eq_some_iff.mp ho
  obtain ⟨_, hes⟩ := h.change? (fun _ => True) (fun es a es' hes hf => by
    split at hf
    · cases hf
      exact ⟨trivial, hes⟩
    · cases hf
      exact ⟨trivial, hes⟩
    · cases hf) hc
  exact ⟨hes, Entries.inRange_nil⟩

theorem InRange.addLine? {line : Line} (h : d.InRange) (hl : line.InRange)
    (ha : d.addLine? line = some d') : d'.InRange := by
  cases line with
  | assignment path key value =>
    obtain ⟨current, hc, rfl⟩ := Option.map_eq_some_iff.mp ha
    exact ⟨h.root, h.current.insertKey? (.value hl) hc⟩
  | tableHeader path key =>
    obtain ⟨es, hc, ho⟩ := Option.bind_eq_some_iff.mp ha
    exact openTable?_inRange (h.close? hc) ho
  | arrayHeader path key =>
    obtain ⟨es, hc, ho⟩ := Option.bind_eq_some_iff.mp ha
    exact openElement?_inRange (h.close? hc) ho

end Draft

/-- Whatever a text says, its integers are signed 64-bit numbers. -/
theorem read?_inRange {s : String} (h : read? s = some value) : value.InRange := by
  obtain ⟨lines, hlines, h⟩ := Option.bind_eq_some_iff.mp h
  obtain ⟨d, hd, h⟩ := Option.bind_eq_some_iff.mp h
  obtain ⟨es, hes, h⟩ := Option.bind_eq_some_iff.mp h
  cases h
  have hempty : Draft.empty.InRange := ⟨Entries.inRange_nil, Entries.inRange_nil⟩
  have hdraft : d.InRange := by
    refine foldlM_keeps (fun line hl d d' hgood hstep => ?_) hempty hd
    exact Draft.InRange.addLine? hgood (readLines_inRange hlines line hl) hstep
  exact (hdraft.close? hes).toValue

end TieredMemory.Toml
