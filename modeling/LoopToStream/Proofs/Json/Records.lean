import LoopToStream.Json.Code
import Mathlib.Data.List.Forall2
import Mathlib.Data.List.Nodup

/-!
# Reading back what has been written

Data is read back from what it is written as (`Decode.Reads`). For numbers this is a matter of their
widths, and for a record of its fields: an object is read as a record if none of the fields is there
twice (`Json.recordOf?_object`), which is so where each member is named after a field of its own
(`Json.exists_record`).
-/

namespace LoopToStream

/-- The data is read back from what it is written as. -/
def Decode.Reads {α : Type} [Encode α] [Decode α] (a : α) : Prop := decode? (encode a) = some a

namespace Json

/-- Among members of different names, none is there twice. -/
theorem length_filter_le_one {members : List (String × Json)}
    (hnodup : (members.map Prod.fst).Nodup)
    (name : String) : (members.filter fun m => m.1 == name).length ≤ 1 := by
  have hcount := List.nodup_iff_count_le_one.1 hnodup name
  rw [List.count, List.countP_map, List.countP_eq_length_filter] at hcount
  exact hcount

/-- An object is a record of the fields that none of its members has the name of a second time. -/
theorem recordOf?_object {members : List (String × Json)} {names : List String}
    (honce : ∀ name ∈ names, (members.filter fun m => m.1 == name).length ≤ 1) (required : Nat) :
    (object members).recordOf? names required = some ⟨members⟩ := by
  have hall : (names.all fun name =>
      decide ((members.filter fun m => m.1 == name).length ≤ 1)) = true := by
    simpa using honce
  unfold recordOf?
  simp only [hall, if_true]

/-- The fields of a record that has been written are all there, and each of them once. -/
theorem exists_record {fields : List (String × Json)} {names : List String}
    (hnames : fields.map Prod.fst = names) (hnodup : names.Nodup) :
    ∃ record, (object fields).record? names = some record ∧ record.fields = fields := by
  subst hnames
  exact ⟨⟨fields⟩, recordOf?_object (fun name _ => length_filter_le_one hnodup name) _, rfl⟩

/-- A list is read by reading its items. -/
theorem mapM_of_forall₂ {β γ : Type} {f : β → Option γ} {as : List γ} {bs : List β}
    (h : List.Forall₂ (fun a b => f b = some a) as bs) : bs.mapM f = some as := by
  induction h with
  | nil => rfl
  | cons ha _ ih =>
    rw [List.mapM_cons, ha, ih]
    rfl

variable {α : Type} [Encode α] [Decode α]

/-- A field of a record is read from the value behind its name. -/
theorem Record.get?_of_lookup {record : Record} {fields : List (String × Json)}
    {name : String} {a : α} (hfields : record.fields = fields)
    (hfield : fields.lookup name = some (encode a))
    (ha : Decode.Reads a) : record.get? name = some a := by
  unfold Record.get?
  rw [hfields, hfield]
  exact ha

/-- A number below a bound is taken. -/
theorem natBelow?_of_lt {bound n : Nat} (h : n < bound) : natBelow? bound (.int n) = some n := by
  show (if 0 ≤ (n : Int) ∧ (n : Int) < bound then some (n : Int).toNat else none) = some n
  rw [if_pos ⟨by omega, by exact_mod_cast h⟩, Int.toNat_natCast]

end Json

namespace Decode.Reads

open Json

theorem bool (b : Bool) : Decode.Reads b := rfl

theorem string (s : String) : Decode.Reads s := rfl

theorem uint32 (n : UInt32) : Decode.Reads n := by
  show (natBelow? UInt32.size (.int n.toNat)).map UInt32.ofNat = some n
  rw [natBelow?_of_lt n.toNat_lt_size]
  simp

theorem uint64 (n : UInt64) : Decode.Reads n := by
  show (natBelow? UInt64.size (.int n.toNat)).map UInt64.ofNat = some n
  rw [natBelow?_of_lt n.toNat_lt_size]
  simp

theorem nodeId {id : NodeId} (h : id.index < UInt32.size) : Decode.Reads id := by
  show (natBelow? UInt32.size (.int id.index)).map NodeId.mk = some id
  rw [natBelow?_of_lt h]
  rfl

theorem varId {id : VarId} (h : id.index < UInt32.size) : Decode.Reads id := by
  show (natBelow? UInt32.size (.int id.index)).map VarId.mk = some id
  rw [natBelow?_of_lt h]
  rfl

theorem methodId {id : MethodId} (h : id.index < UInt32.size) : Decode.Reads id := by
  show (natBelow? UInt32.size (.int id.index)).map MethodId.mk = some id
  rw [natBelow?_of_lt h]
  rfl

theorem int64 (n : Int64) : Decode.Reads n := by
  show (if Int64.minValue.toInt ≤ n.toInt ∧
    n.toInt ≤ Int64.maxValue.toInt then some (Int64.ofInt n.toInt) else none) = some n
  rw [if_pos ⟨n.le_toInt, n.toInt_le⟩, Int64.ofInt_toInt]

theorem char (c : Char) : Decode.Reads c := by
  unfold Decode.Reads
  simp [encode, decode?, String.toList_singleton]

theorem list {α : Type} [Encode α] [Decode α] {items : List α}
    (h : ∀ item ∈ items, Decode.Reads item) :
    Decode.Reads items := by
  show (items.map encode).mapM decode? = some items
  exact mapM_of_forall₂ (List.forall₂_map_right_iff.2 (List.forall₂_same.2 h))

end Decode.Reads

end LoopToStream
