import TieredMemory.Json.Codec
import TieredMemory.Proofs.Json.Reading
import TieredMemory.Proofs.Lists

/-!
# The data model comes back from its texts

A record is written with all its fields under names of their own, so each is found when it is read.
Every number of the model is a word, in digits, and a missing part is written as `null`; so each kind
of data is read back from its compact text as it was, whatever the words, the names and the parts
that are missing.
-/
set_option autoImplicit false

namespace TieredMemory

namespace Json

variable {α : Type} {members : List (String × Value)}

/-! ## What is written -/

namespace Value

theorem plain_word (w : UInt64) : (word w).Plain := .number (Toml.isNumeral_toDigits _)

theorem plain_text (s : String) : (text s).Plain := .string _

theorem plain_optional {f : α → Value} (hf : ∀ a, (f a).Plain) : ∀ a, (optional f a).Plain
  | none => .null
  | some a => hf a

theorem plain_record (h : ∀ m ∈ members, m.2.Plain) : (record members).Plain := by
  refine .object fun m hm => ?_
  obtain ⟨member, hmember, rfl⟩ := List.mem_map.mp hm
  exact h member hmember

/-! ## What is read -/

theorem membersNamed_record (h : (members.map (·.1)).Nodup) {m : String × Value}
    (hm : m ∈ members) :
    membersNamed (members.map fun m => (some m.1, m.2)) m.1 = [m.2] := by
  have hfilter : members.filter (·.1 == m.1) = [m] := filter_eq_singleton h hm rfl
  rw [membersNamed, List.filter_map, List.map_map]
  have hkey : ((fun n : Literal × Value => n.1 == some m.1) ∘
      fun n : String × Value => (some n.1, n.2)) = (·.1 == m.1) := by
    funext n
    simp
  rw [hkey, hfilter]
  rfl

/-- The fields of a record are found, each with its value. -/
theorem fieldsOfObject?_record (h : (members.map (·.1)).Nodup) :
    ∀ {part : List (String × Value)} {fields : List (String × Presence)}, part ⊆ members →
      fields.map (·.1) = part.map (·.1) →
      fieldsOfObject? (members.map fun m => (some m.1, m.2)) fields =
        some (part.map fun m => some m.2)
  | [], [], _, _ => rfl
  | m :: part, (key, presence) :: fields, hpart, hkeys => by
    rw [List.map_cons, List.map_cons, List.cons.injEq] at hkeys
    obtain ⟨rfl, hkeys⟩ := hkeys
    have hrest := fieldsOfObject?_record h (List.subset_of_cons_subset hpart) hkeys
    simp [fieldsOfObject?, membersNamed_record h (hpart List.mem_cons_self), hrest]

theorem fields?_record {fields : List (String × Presence)} (h : (fields.map (·.1)).Nodup)
    (hkeys : fields.map (·.1) = members.map (·.1)) :
    fields? fields (record members) = some (members.map fun m => some m.2) := by
  have hnamed : (members.map fun m => (some m.1, m.2)).all
      (fun m : Literal × Value => m.1.isSome) = true := by simp
  show (if _ then _ else none) = _
  rw [if_pos hnamed]
  exact fieldsOfObject?_record (hkeys ▸ h) (List.Subset.refl members) hkeys

@[simp] theorem word?_word (w : UInt64) : (word w).word? = some w := by
  have hdigits : (Nat.toDigits 10 w.toNat).all Char.isDigit = true :=
    List.all_eq_true.mpr (Toml.isNumeral_toDigits _).digits
  rw [word, word?, if_pos hdigits]
  simp only [Nat.ofDigitChars_ten_toDigits]
  rw [if_pos w.toNat_lt_size, UInt64.ofNat_toNat]

@[simp] theorem text?_text (s : String) : (text s).text? = some s := rfl

@[simp] theorem name?_text (s : String) : (text s).name? = some s := rfl

@[simp] theorem orDefault_some (default : α) (f : Value → Option α) (v : Value) :
    orDefault default f (some v) = f v := rfl

/-- What is not written as `null` is read back whether or not it is there. -/
theorem nullable?_optional {toJson : α → Value} {ofJson? : Value → Option α}
    (h : ∀ a, ofJson? (toJson a) = some a) (hnull : ∀ a, toJson a ≠ .null) (a : Option α) :
    nullable? ofJson? (some (optional toJson a)) = some a := by
  cases a with
  | none => rfl
  | some a =>
    rw [optional, nullable?, h, Option.map_some]
    exact hnull a

end Value

/-! ## Round trips -/

/-- Whatever is written compactly is read back as it was. -/
def RoundTrips (toJson : α → Value) (ofJson? : Value → Option α) : Prop :=
  ∀ a, (read? (toJson a).compact).bind ofJson? = some a

theorem roundTrips {toJson : α → Value} {ofJson? : Value → Option α}
    (hplain : ∀ a, (toJson a).Plain) (h : ∀ a, ofJson? (toJson a) = some a) :
    RoundTrips toJson ofJson? := by
  intro a
  rw [Value.read?_compact (hplain a), Option.bind_some, h]

end Json

open Json (Value RoundTrips roundTrips)
open Json.Value (plain_record plain_word plain_text plain_optional fields?_record
  nullable?_optional)

namespace Tier

theorem plain_toJson (t : Tier) : t.toJson.Plain := plain_text _

@[simp] theorem ofJson?_toJson (t : Tier) : ofJson? t.toJson = some t := by
  cases t <;> simp [ofJson?, toJson, all, key]

end Tier

namespace Mode

theorem plain_toJson (m : Mode) : m.toJson.Plain := plain_text _

@[simp] theorem ofJson?_toJson (m : Mode) : ofJson? m.toJson = some m := by
  cases m <;> simp [ofJson?, toJson, all, key]

end Mode

namespace CoreId

theorem plain_toJson (c : CoreId) : c.toJson.Plain := plain_record (by simp [plain_word])

@[simp] theorem ofJson?_toJson (c : CoreId) : ofJson? c.toJson = some c := by
  rw [ofJson?, toJson, fields?_record (by simp) (by simp)]
  simp

end CoreId

namespace Topology

theorem plain_toJson (t : Topology) : t.toJson.Plain := plain_record (by simp [plain_word])

theorem ofJson?_toJson (t : Topology) : ofJson? t.toJson = some t := by
  rw [ofJson?, toJson, fields?_record (by simp) (by simp)]
  simp

end Topology

namespace AddressRange

theorem plain_toJson (r : AddressRange) : r.toJson.Plain := plain_record (by simp [plain_word])

theorem ofJson?_toJson (r : AddressRange) : ofJson? r.toJson = some r := by
  rw [ofJson?, toJson, fields?_record (by simp) (by simp)]
  simp

end AddressRange

namespace Address

theorem plain_toJson (a : Address) : a.toJson.Plain :=
  plain_record (by simp [plain_word, plain_optional, Tier.plain_toJson, Mode.plain_toJson,
    CoreId.plain_toJson])

theorem ofJson?_toJson (a : Address) : ofJson? a.toJson = some a := by
  rw [ofJson?, toJson, fields?_record (by simp) (by simp)]
  have hword := nullable?_optional Value.word?_word fun w => by simp [Value.word]
  have hissuer := nullable?_optional CoreId.ofJson?_toJson fun c => by
    simp [CoreId.toJson, Value.record]
  simp [hword, hissuer]

end Address

namespace BankedMemory

theorem plain_toJson (b : BankedMemory) : b.toJson.Plain := plain_record (by simp [plain_word])

@[simp] theorem ofJson?_toJson (b : BankedMemory) : ofJson? b.toJson = some b := by
  rw [ofJson?, toJson, fields?_record (by simp) (by simp)]
  simp

end BankedMemory

namespace Machine

theorem plain_sizeToJson (size : UInt64) : (sizeToJson size).Plain :=
  plain_record (by simp [plain_word])

@[simp] theorem sizeOfJson?_sizeToJson (size : UInt64) :
    sizeOfJson? (sizeToJson size) = some size := by
  rw [sizeOfJson?, sizeToJson, fields?_record (by simp) (by simp)]
  simp

theorem plain_toJson (machine : Machine) : machine.toJson.Plain :=
  plain_record (by simp [plain_word, plain_text, plain_sizeToJson, BankedMemory.plain_toJson])

theorem ofJson?_toJson (machine : Machine) : ofJson? machine.toJson = some machine := by
  rw [ofJson?, toJson, fields?_record (by simp) (by simp)]
  simp

end Machine

namespace Json

/-- Addresses, tiers, modes, ranges, cores, topologies and machines come back from their compact
texts as they were, with any words, any of the optional parts and any name. -/
theorem data_model_roundTrips :
    RoundTrips Address.toJson Address.ofJson? ∧ RoundTrips Tier.toJson Tier.ofJson? ∧
    RoundTrips Mode.toJson Mode.ofJson? ∧ RoundTrips AddressRange.toJson AddressRange.ofJson? ∧
    RoundTrips CoreId.toJson CoreId.ofJson? ∧ RoundTrips Topology.toJson Topology.ofJson? ∧
    RoundTrips Machine.toJson Machine.ofJson? :=
  ⟨roundTrips Address.plain_toJson Address.ofJson?_toJson,
    roundTrips Tier.plain_toJson Tier.ofJson?_toJson,
    roundTrips Mode.plain_toJson Mode.ofJson?_toJson,
    roundTrips AddressRange.plain_toJson AddressRange.ofJson?_toJson,
    roundTrips CoreId.plain_toJson CoreId.ofJson?_toJson,
    roundTrips Topology.plain_toJson Topology.ofJson?_toJson,
    roundTrips Machine.plain_toJson Machine.ofJson?_toJson⟩

end Json

end TieredMemory
