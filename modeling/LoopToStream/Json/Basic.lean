/-!
# JSON values and how data is written in them

`Json` is a JSON value as far as this library reads one: integers are numbers, numerals with a
fraction or an exponent are not, and the members of an object are kept in their order with
repetitions.

Data is written in a fixed way:

* a record is an object with a member for each field (`Json.Record`). Reading accepts further
  members, and a list of the fields in order; a field that is written twice is an error. A
  field whose type has a value for "not there" may be left out (`Decode.absent?`);
* a choice between constructors is a string for a constructor without data and an object with
  one member for one with data (`Json.variant?`). Reading accepts a member `null` for a
  constructor without data;
* an option is `null` or its value, and a list is a list.

Reading is all or nothing: there is one answer, `none`, for everything that is not accepted.
-/

namespace LoopToStream

/-- A JSON value. -/
inductive Json where
  | null
  | bool (value : Bool)
  | int (value : Int)
  | str (text : String)
  | list (items : List Json)
  | object (members : List (String × Json))
  /-- Something that is written correctly and has no value here: a numeral with a fraction, an
  exponent or the sign of a negative zero, or a string or an object with a name that escapes
  half of a surrogate pair. It may stand where it is not looked at. -/
  | unread
deriving Repr, Inhabited

namespace Json

/-! ### Depth -/

mutual

/-- How deep lists and objects are nested. -/
def depth : Json → Nat
  | list items => depthOfList items + 1
  | object members => depthOfMembers members + 1
  | _ => 1

/-- The depth of the deepest item. -/
def depthOfList : List Json → Nat
  | [] => 0
  | item :: items => max item.depth (depthOfList items)

/-- The depth of the deepest value of a member. -/
def depthOfMembers : List (String × Json) → Nat
  | [] => 0
  | (_, value) :: members => max value.depth (depthOfMembers members)

end

/-! ### Objects -/

/-- The members of an object. -/
def members? : Json → Option (List (String × Json))
  | object members => some members
  | _ => none

/-- The value of the last member of a name. -/
def member? (name : String) : Json → Option Json
  | object members => members.reverse.lookup name
  | _ => none

/-- An object with some of its members set: a member of `changes` takes the place of the
members of the same name. -/
def withMembers (changes : List (String × Json)) : Json → Json
  | object members =>
    object (members.filter (fun m => !changes.any fun c => c.1 == m.1) ++ changes)
  | other => other

end Json

/-! ### Writing and reading data -/

/-- Data of type `α` can be written as JSON. -/
class Encode (α : Type) where
  encode : α → Json

/-- Data of type `α` can be read from JSON. -/
class Decode (α : Type) where
  decode? : Json → Option α
  /-- What a field that is left out is read as. -/
  absent? : Option α := none

export Encode (encode)
export Decode (decode?)

section Instances

variable {α : Type}

instance : Encode Json := ⟨id⟩

instance : Encode Bool := ⟨.bool⟩

instance : Decode Bool where
  decode?
    | .bool b => some b
    | _ => none

instance : Encode String := ⟨.str⟩

instance : Decode String where
  decode?
    | .str s => some s
    | _ => none

instance : Encode Nat := ⟨fun n => .int n⟩

instance : Encode UInt32 := ⟨fun n => .int n.toNat⟩

/-- The natural number that an integer in the given range is. -/
def Json.natBelow? (bound : Nat) : Json → Option Nat
  | .int n => if 0 ≤ n ∧ n < bound then some n.toNat else none
  | _ => none

instance : Decode UInt32 := ⟨fun json => (json.natBelow? UInt32.size).map UInt32.ofNat, none⟩

instance : Encode UInt64 := ⟨fun n => .int n.toNat⟩

instance : Decode UInt64 := ⟨fun json => (json.natBelow? UInt64.size).map UInt64.ofNat, none⟩

instance : Encode Int64 := ⟨fun n => .int n.toInt⟩

instance : Decode Int64 where
  decode?
    | .int n =>
      if Int64.minValue.toInt ≤ n ∧ n ≤ Int64.maxValue.toInt then some (Int64.ofInt n) else none
    | _ => none

instance : Encode Char := ⟨fun c => .str (String.singleton c)⟩

instance : Decode Char where
  decode?
    | .str s =>
      match s.toList with
      | [c] => some c
      | _ => none
    | _ => none

instance [Encode α] : Encode (Option α) where
  encode
    | some a => encode a
    | none => .null

instance [Decode α] : Decode (Option α) where
  decode?
    | .null => some none
    | json => (decode? json).map some
  absent? := some none

instance [Encode α] : Encode (List α) := ⟨fun items => .list (items.map encode)⟩

instance [Decode α] : Decode (List α) where
  decode?
    | .list items => items.mapM decode?
    | _ => none

instance [Encode α] : Encode (Array α) := ⟨fun items => encode items.toList⟩

instance [Decode α] : Decode (Array α) where
  decode? json := (decode? json : Option (List α)).map List.toArray

end Instances

namespace Json

/-! ### Records -/

/-- The fields of a record that are there. -/
structure Record where
  fields : List (String × Json)

/-- The record with the fields of these names: an object none of whose members has one of the
names a second time, or a list of the fields in order, of which at least `required` must be
there. -/
def recordOf? (names : List String) (required : Nat) : Json → Option Record
  | object members =>
    -- further members are skipped, also ones that are there twice
    if names.all fun name => (members.filter fun m => m.1 == name).length ≤ 1 then
      some ⟨members⟩
    else none
  | list items =>
    if required ≤ items.length ∧ items.length ≤ names.length then some ⟨names.zip items⟩
    else none
  | _ => none

/-- The record with the fields of these names. -/
def record? (names : List String) : Json → Option Record := recordOf? names names.length

namespace Record

variable {α : Type} [Decode α] (record : Record)

/-- A field, or what its type takes for a field that is left out. -/
def get? (name : String) : Option α :=
  match record.fields.lookup name with
  | some json => decode? json
  | none => Decode.absent?

/-- A field that has a value of its own for being left out. -/
def getD? (name : String) (default : α) : Option α :=
  match record.fields.lookup name with
  | some json => decode? json
  | none => some default

end Record

/-! ### Choices -/

/-- The constructor that is named, with its data if there is any. -/
def variant? : Json → Option (String × Option Json)
  | str name => some (name, none)
  | object [(name, data)] => some (name, some data)
  | _ => none

/-- A constructor without data. -/
def unit? {α : Type} (value : α) : Option Json → Option α
  | none => some value
  | some null => some value
  | _ => none

/-- A constructor with data. -/
def data? {α β : Type} [Decode α] (make : α → β) (data : Option Json) : Option β :=
  (data.bind decode?).map make

/-- A constructor whose data is a record. -/
def fields? {β : Type} (names : List String) (make : Record → Option β)
    (data : Option Json) : Option β :=
  (data.bind (record? names)).bind make

/-- The form of a constructor with data. -/
def variant (name : String) (data : Json) : Json := object [(name, data)]

end Json

end LoopToStream
