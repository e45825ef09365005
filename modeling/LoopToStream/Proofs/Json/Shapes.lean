import LoopToStream.Proofs.Json.Records

/-!
# Variants of written data

What is written as JSON is also read from other forms: members that are not known are skipped, a
field may be missing where that is as good as its value, and a constructor without data may have the
member `null`. `Json.Variant` relates two JSON values of which the second one comes from the first
by such changes, anywhere in it and any number of them.

Which member is a field and which text is a constructor depends on the data. It is said by a
`Json.Shape`, and each type of data has its own (`Json.Shaped`). Data is *read from all its
variants* (`Decode.ReadsAll`) if each variant of what it is written as is read as that data again.
There is a lemma for each sort of shape:

* `Variant.exists_fields` — whatever has been done to a record, it is still read as one, and each
  field is there with a variant of its value or was allowed to be left out (`Json.Fate`);
* `Variant.exists_data` and `Variant.eq_of_unit` — a constructor keeps its name;
* `Decode.ReadsAll.option` and `Decode.ReadsAll.list` — options and lists vary as what they hold
  does.
-/

namespace LoopToStream

namespace Json

/-! ### Shapes -/

/-- When a field may be left out. -/
inductive Omission where
  | never
  /-- An option that is not there. -/
  | whenNull
  /-- A flag that is not set. -/
  | whenFalse
deriving DecidableEq, Repr

/-- A field with this value may be left out. -/
def Omission.allows : Omission → Json → Bool
  | whenNull, .null => true
  | whenFalse, .bool false => true
  | _, _ => false

/-- How data is written. -/
inductive Shape where
  /-- A number, a truth value or a text. -/
  | plain
  | option (inner : Shape)
  | list (item : Shape)
  | record (fields : List (String × Omission × Shape))
  /-- Constructors, with the shapes of their data. -/
  | choice (constructors : List (String × Option Shape))
  /-- A class type, whose arguments are class types again. -/
  | classType

/-- Data of type `α` is written in a fixed shape. -/
class Shaped (α : Type) where
  shape : Shape
  omission : Omission := .never

export Shaped (shape)

/-- A field that holds data of type `α`. -/
def field (name : String) (α : Type) [Shaped α] : String × Omission × Shape :=
  (name, Shaped.omission α, shape α)

section Instances

variable {α : Type}

instance : Shaped Bool := ⟨.plain, .never⟩

instance : Shaped String := ⟨.plain, .never⟩

instance : Shaped Char := ⟨.plain, .never⟩

instance : Shaped UInt32 := ⟨.plain, .never⟩

instance : Shaped UInt64 := ⟨.plain, .never⟩

instance : Shaped Int64 := ⟨.plain, .never⟩

instance [Shaped α] : Shaped (Option α) := ⟨.option (shape α), .whenNull⟩

instance [Shaped α] : Shaped (List α) := ⟨.list (shape α), .never⟩

instance [Shaped α] : Shaped (Array α) := ⟨.list (shape α), .never⟩

end Instances

instance : Shaped ClassType := ⟨.classType, .never⟩

/-- The fields of a class type. -/
def classTypeFields : List (String × Omission × Shape) :=
  [field "name" String, field "args" (List ClassType), ("diamond", .whenFalse, .plain)]

/-! ### Variants -/

variable {name : String} {omission : Omission} {shape inner item : Shape}
  {fields : List (String × Omission × Shape)} {constructors : List (String × Option Shape)}
  {members members' : List (String × Json)} {items items' : List Json}
  {json json' value value' data : Json}

/-- The value of a field that is kept, before and after. -/
structure Kept where
  shape : Shape
  before : Json
  after : Json

variable {kept : List Kept}

/-- **Changing the members of a record.** From the front, a field is kept or left out, and members
that are not known may be added. What becomes of the values that are kept is left open. -/
inductive Members (fields : List (String × Omission × Shape)) :
    List (String × Json) → List (String × Json) → List Kept → Prop where
  | nil : Members fields [] [] []
  | keep {name : String} {omission : Omission} {shape : Shape} {value value' : Json}
      {members members' : List (String × Json)} {kept : List Kept}
      (known : fields.lookup name = some (omission, shape))
      (rest : Members fields members members' kept) :
      Members fields ((name, value) :: members) ((name, value') :: members')
        (⟨shape, value, value'⟩ :: kept)
  | leaveOut {name : String} {omission : Omission} {shape : Shape} {value : Json}
      {members members' : List (String × Json)} {kept : List Kept}
      (known : fields.lookup name = some (omission, shape)) (allowed : omission.allows value = true)
      (rest : Members fields members members' kept) :
      Members fields ((name, value) :: members) members' kept
  | add {name : String} {value : Json} {members members' : List (String × Json)} {kept : List Kept}
      (unknown : fields.lookup name = none) (rest : Members fields members members' kept) :
      Members fields members ((name, value) :: members') kept

/-- **The variants of a value** that is written in a shape. -/
inductive Variant : Shape → Json → Json → Prop where
  | same {shape : Shape} {json : Json} : Variant shape json json
  | there {inner : Shape} {json json' : Json} (nonnull : json ≠ .null)
      (inside : Variant inner json json') :
      Variant (.option inner) json json'
  | list {item : Shape} {items items' : List Json} (length : items.length = items'.length)
      (inside : ∀ json json', (json, json') ∈ items.zip items' → Variant item json json') :
      Variant (.list item) (.list items) (.list items')
  | record {fields : List (String × Omission × Shape)} {members members' : List (String × Json)}
      {kept : List Kept} (changed : Members fields members members' kept)
      (inside : ∀ value ∈ kept, Variant value.shape value.before value.after) :
      Variant (.record fields) (.object members) (.object members')
  | unit {constructors : List (String × Option Shape)} {name : String}
      (known : constructors.lookup name = some none) :
      Variant (.choice constructors) (.str name) (.variant name .null)
  | data {constructors : List (String × Option Shape)} {name : String} {shape : Shape}
      {json json' : Json} (known : constructors.lookup name = some (some shape))
      (inside : Variant shape json json') :
      Variant (.choice constructors) (.variant name json) (.variant name json')
  | classType {json json' : Json} (inside : Variant (.record classTypeFields) json json') :
      Variant .classType json json'

/-! ### Records -/

/-- **What has become of a field**: it is there with a variant of its value, or was allowed to be
left out. -/
inductive Fate (omission : Omission) (shape : Shape) (value : Json) : Option Json → Prop where
  | kept {value' : Json} (inside : Variant shape value value') :
      Fate omission shape value (some value')
  | leftOut (allowed : omission.allows value = true) : Fate omission shape value none

namespace Members

/-- Changes add no field. -/
theorem name_mem (h : Members fields members members' kept) (hknown : (fields.lookup name).isSome)
    (hname : name ∈ members'.map Prod.fst) : name ∈ members.map Prod.fst := by
  induction h with
  | nil => exact hname
  | keep _ _ ih =>
    rw [List.map_cons, List.mem_cons] at hname ⊢
    exact hname.imp_right ih
  | leaveOut _ _ _ ih =>
    rw [List.map_cons]
    exact List.mem_cons_of_mem _ (ih hname)
  | add unknown _ ih =>
    rw [List.map_cons, List.mem_cons] at hname
    rcases hname with rfl | hname
    · -- only what is not known is added
      simp [unknown] at hknown
    · exact ih hname

/-- A field does not get to be there more often. -/
theorem length_le (h : Members fields members members' kept)
    (hknown : (fields.lookup name).isSome) :
    (members'.filter fun m => m.1 == name).length ≤
      (members.filter fun m => m.1 == name).length := by
  induction h with
  | nil => exact Nat.le_refl _
  | keep _ _ ih =>
    rw [List.filter_cons, List.filter_cons]
    split
    · simpa using ih
    · exact ih
  | leaveOut _ _ _ ih =>
    rw [List.filter_cons]
    -- one less, if the field that is left out is the one that is counted
    split
    · exact Nat.le_trans ih (Nat.le_succ _)
    · exact ih
  | @add other _ _ _ _ unknown _ ih =>
    -- a field that is added is unknown, so it is not the one that is counted
    have hother : (other == name) = false := by
      refine beq_eq_false_iff_ne.2 ?_
      rintro rfl
      simp [unknown] at hknown
    simpa [List.filter_cons, hother] using ih

/-- A field that is there once is kept, or left out as far as that is allowed. -/
theorem lookup (h : Members fields members members' kept) (hnodup : (members.map Prod.fst).Nodup)
    (hfield : fields.lookup name = some (omission, shape))
    (hvalue : members.lookup name = some value) :
    (∃ value', members'.lookup name = some value' ∧ ⟨shape, value, value'⟩ ∈ kept) ∨
      members'.lookup name = none ∧ omission.allows value = true := by
  -- there is no such field among the other members, so that the first one decides
  induction h with
  | nil => simp at hvalue
  | @keep other _ _ _ after _ _ _ known _ ih =>
    rw [List.map_cons, List.nodup_cons] at hnodup
    by_cases hname : name = other
    · -- the first member is the field, and it is kept
      subst hname
      obtain ⟨rfl, rfl⟩ : _ = omission ∧ _ = shape := by simpa [known] using hfield
      obtain rfl : _ = value := by simpa using hvalue
      exact .inl ⟨after, by simp, by simp⟩
    · have hother : (name == other) = false := beq_eq_false_iff_ne.2 hname
      rw [List.lookup_cons, hother] at hvalue ⊢
      exact (ih hnodup.2 hvalue).imp_left fun ⟨value', hfound, hmem⟩ =>
        ⟨value', hfound, List.mem_cons_of_mem _ hmem⟩
  | @leaveOut other _ _ _ _ _ _ known allowed rest ih =>
    rw [List.map_cons, List.nodup_cons] at hnodup
    by_cases hname : name = other
    · subst hname
      obtain ⟨rfl, rfl⟩ : _ = omission ∧ _ = shape := by simpa [known] using hfield
      obtain rfl : _ = value := by simpa using hvalue
      refine .inr ⟨?_, allowed⟩
      -- there was no second one
      rw [List.lookup_eq_none_iff]
      intro member hmember
      rw [bne_iff_ne]
      rintro rfl
      exact hnodup.1 (rest.name_mem (by simp [known]) (List.mem_map.2 ⟨member, hmember, rfl⟩))
    · have hother : (name == other) = false := beq_eq_false_iff_ne.2 hname
      rw [List.lookup_cons, hother] at hvalue
      exact ih hnodup.2 hvalue
  | @add other _ _ _ _ unknown _ ih =>
    have hother : (name == other) = false := by
      refine beq_eq_false_iff_ne.2 ?_
      rintro rfl
      simp [unknown] at hfield
    rw [List.lookup_cons, hother]
    exact ih hnodup hvalue

end Members

namespace Variant

/-- **A record stays one.** It is read as a record of the same fields, and each of them is there
with a variant of its value or was allowed to be left out. -/
theorem exists_fields (h : Variant (.record fields) (.object members) json) (names : List String)
    (hmembers : members.map Prod.fst = names) (hfields : fields.map Prod.fst = names)
    (hnodup : names.Nodup) :
    ∃ record : Record, (∀ required, json.recordOf? names required = some record) ∧
      json = .object record.fields ∧
      ∀ {name omission shape value}, fields.lookup name = some (omission, shape) →
        members.lookup name = some value →
        Fate omission shape value (record.fields.lookup name) := by
  subst hmembers
  -- the names are distinct to begin with
  have honce : ∀ name, (members.filter fun m => m.1 == name).length ≤ 1 :=
    length_filter_le_one hnodup
  cases h with
  | same =>
    refine ⟨⟨members⟩, recordOf?_object fun name _ => honce name, rfl, ?_⟩
    intro name omission shape value _ hvalue
    rw [hvalue]
    exact .kept .same
  | @record _ _ members' _ changed inside =>
    -- every name of the members is one that the record knows
    have hknown : ∀ name ∈ members.map Prod.fst, (fields.lookup name).isSome := by
      intro name hname
      rw [← hfields] at hname
      by_contra hnone
      rw [Option.not_isSome_iff_eq_none, List.lookup_eq_none_iff] at hnone
      obtain ⟨field, hfield, rfl⟩ := List.mem_map.1 hname
      simpa using hnone field hfield
    -- no field has got there a second time, which is all that a record is asked for
    refine ⟨⟨members'⟩,
      recordOf?_object fun name hname =>
        Nat.le_trans (changed.length_le (hknown name hname)) (honce name), rfl, ?_⟩
    intro name omission shape value hfield hvalue
    rcases changed.lookup hnodup hfield hvalue with ⟨value', hfound, hkept⟩ | ⟨hnone, hallowed⟩
    · rw [hfound]
      exact .kept (inside _ hkept)
    · rw [hnone]
      exact .leftOut hallowed

/-! ### Constructors, options and lists -/

/-- A constructor without data is a text, or has the member `null`. -/
theorem eq_of_unit (h : Variant (.choice constructors) (.str name) json) :
    json = .str name ∨ json = .variant name .null := by
  cases h with
  | same => exact .inl rfl
  | unit _ => exact .inr rfl

/-- A constructor with data has a variant of it. -/
theorem exists_data (h : Variant (.choice constructors) (.variant name data) json)
    (hname : constructors.lookup name = some (some shape)) :
    ∃ data', Variant shape data data' ∧ json = .variant name data' := by
  -- what has been written is only known by its form here, which fits one of the changes
  generalize hwritten : Json.variant name data = written at h
  cases h with
  | same => exact ⟨data, .same, hwritten.symm⟩
  | unit _ => simp [Json.variant] at hwritten
  | @data _ other shape' value value' known inside =>
    obtain ⟨rfl, rfl⟩ : name = other ∧ data = value := by simpa [Json.variant] using hwritten
    obtain rfl : shape = shape' := by simpa [known] using hname.symm
    exact ⟨value', inside, rfl⟩

/-- A constructor whose data is a record keeps its name, and what is made of the record is made of
its fields. -/
theorem exists_fields_data
    (h : Variant (.choice constructors) (.variant name (.object members)) json)
    (hname : constructors.lookup name = some (some (.record fields))) (names : List String)
    (hmembers : members.map Prod.fst = names) (hfields : fields.map Prod.fst = names)
    (hnodup : names.Nodup) :
    ∃ data, json = .variant name data ∧ ∃ record : Record,
      (∀ {β : Type} (make : Record → Option β), fields? names make (some data) = make record) ∧
      ∀ {name omission shape value}, fields.lookup name = some (omission, shape) →
        members.lookup name = some value →
        Fate omission shape value (record.fields.lookup name) := by
  obtain ⟨data, hdata, rfl⟩ := h.exists_data hname
  obtain ⟨record, hrecord, -, hfate⟩ := hdata.exists_fields names hmembers hfields hnodup
  refine ⟨data, rfl, record, fun make => ?_, hfate⟩
  show (data.record? names).bind make = make record
  rw [record?, hrecord]
  rfl

/-- A list has a variant of each item. -/
theorem exists_items (h : Variant (.list item) (.list items) json) :
    ∃ items', json = .list items' ∧ List.Forall₂ (Variant item) items items' := by
  cases h with
  | same => exact ⟨items, rfl, List.forall₂_same.2 fun _ _ => .same⟩
  | @list _ _ items' length inside =>
    exact ⟨items', rfl, List.forall₂_iff_zip.2 ⟨length, fun hmem => inside _ _ hmem⟩⟩

/-- A list may have a variant of each item. -/
theorem of_items (h : List.Forall₂ (Variant item) items items') :
    Variant (.list item) (.list items) (.list items') :=
  .list h.length_eq fun _ _ hmem => (List.forall₂_iff_zip.1 h).2 hmem

end Variant

end Json

open Json

variable {α : Type} [Encode α] [Decode α] [Shaped α]

/-- **Data is read from all variants** of what it is written as. -/
def Decode.ReadsAll (a : α) : Prop :=
  ∀ json, Variant (shape α) (encode a) json → decode? json = some a

namespace Decode.ReadsAll

/-- Data is read from what it is written as. -/
theorem reads {a : α} (h : Decode.ReadsAll a) : Decode.Reads a := h _ .same

/-- A constructor is read as soon as its data is. -/
theorem data? {β : Type} {a : α} {data : Json} (h : Decode.ReadsAll a)
    (hdata : Variant (shape α) (encode a) data) (make : α → β) :
    Json.data? make (some data) = some (make a) := by
  show (decode? data).map make = some (make a)
  rw [h data hdata]
  rfl

/-- A number, a truth value or a text has no variants. -/
theorem plain {a : α} (hshape : shape α = .plain) (h : Decode.Reads a) : Decode.ReadsAll a := by
  intro json hjson
  rw [hshape] at hjson
  cases hjson
  exact h

theorem option {a : Option α} (hnull : (decode? .null : Option α) = none)
    (h : ∀ b ∈ a, Decode.ReadsAll b) :
    Decode.ReadsAll a := by
  intro json hjson
  change Variant (.option (shape α)) (encode a) json at hjson
  cases a with
  | none =>
    -- `null` has no variant but itself
    generalize hwritten : encode (none : Option α) = written at hjson
    cases hjson with
    | same =>
      rw [← hwritten]
      rfl
    | there nonnull _ => exact absurd hwritten.symm nonnull
  | some b =>
    have hvariant : Variant (shape α) (encode b) json := by
      cases hjson with
      | same => exact .same
      | there _ inside => exact inside
    -- what is there is read as before
    have hread : decode? json = some b := h b rfl json hvariant
    -- `null` would be read as nothing, and so it must not be a variant of a value
    cases json with
    | null => simp [hnull] at hread
    | _ =>
      show (decode? _).map some = some (some b)
      rw [hread]
      rfl

theorem list {items : List α}
    (h : ∀ item ∈ items, Decode.ReadsAll item) : Decode.ReadsAll items := by
  intro json hjson
  obtain ⟨items', rfl, heach⟩ :=
    Variant.exists_items (show Variant (.list (shape α)) _ json from hjson)
  rw [List.forall₂_map_left_iff] at heach
  have hboth := (List.forall₂_and_left _ _).2 ⟨h, heach⟩
  show items'.mapM decode? = some items
  exact mapM_of_forall₂ (hboth.imp fun item json hitem => hitem.1 json hitem.2)

theorem array {items : Array α} (h : ∀ item ∈ items, Decode.ReadsAll item) :
    Decode.ReadsAll items := by
  intro json hjson
  have hlist : decode? json = some items.toList :=
    list (fun item hitem => h item (by simpa using hitem)) json hjson
  show (decode? json).map List.toArray = some items
  rw [hlist]
  rfl

end Decode.ReadsAll

namespace Json.Record

variable {record : Record} {name : String}

/-- A field that is never left out. -/
theorem get?_of_fate {a : α} (h : Fate .never (shape α) (encode a) (record.fields.lookup name))
    (ha : Decode.ReadsAll a) : record.get? name = some a := by
  unfold get?
  generalize record.fields.lookup name = found at h ⊢
  cases h with
  | kept inside => exact ha _ inside
  | leftOut allowed => simp [Omission.allows] at allowed

/-- An option, which is not there if it is left out. -/
theorem get?_option {a : Option α}
    (h : Fate .whenNull (shape (Option α)) (encode a) (record.fields.lookup name))
    (ha : Decode.ReadsAll a) : record.get? name = some a := by
  unfold get?
  generalize record.fields.lookup name = found at h ⊢
  cases h with
  | kept inside => exact ha _ inside
  | leftOut allowed =>
    have hnull : encode a = .null := by
      cases hvalue : encode a <;> simp_all [Omission.allows]
    -- what is written as `null` is read as nothing
    have hread : decode? (encode a) = some a := ha.reads
    rw [hnull] at hread
    exact hread

/-- A flag, which is not set if it is left out. -/
theorem getD?_flag {flag : Bool}
    (h : Fate .whenFalse .plain (encode flag) (record.fields.lookup name)) :
    record.getD? name false = some flag := by
  unfold getD?
  generalize record.fields.lookup name = found at h ⊢
  cases h with
  | kept inside =>
    cases inside
    rfl
  | leftOut allowed =>
    cases flag with
    | false => rfl
    | true => simp [encode, Omission.allows] at allowed

end Json.Record

end LoopToStream
