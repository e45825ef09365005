import LoopToStream.Proofs.Code.Slots
import LoopToStream.Proofs.Json.Shapes

/-!
# Trees survive being written

A tree is read back from what it is written as, and from every variant of that
(`Tree.survives_variants`). Nothing is assumed about how its parts fit together: links may lead
nowhere or be shared, and what a node says about its parent is taken as it stands.

The shape of each type is listed first. Then there is one lemma for each type, which says that its
data is read from all variants (`Decode.ReadsAll`) if that is so for what it holds. A class type is
read along how deep its form is nested, which is what the induction for it is on
(`ClassType.readWithin_of_variant`); everything else is read field by field.

Ids are natural numbers here and are written as such, but only those of 32 bits are accepted when
they are read. That is what is asked of a tree (`Tree.IdsFit`).
-/

namespace LoopToStream

open Json

/-! ### Shapes -/

instance : Shaped NodeId := ⟨.plain, .never⟩

instance : Shaped VarId := ⟨.plain, .never⟩

instance : Shaped MethodId := ⟨.plain, .never⟩

instance : Shaped Span where
  shape := .record [field "file" UInt64, field "lo" UInt32, field "hi" UInt32]

instance : Shaped VariableKind where
  shape :=
    .choice [("Local", none), ("Parameter", none),
      ("Field", some (.record [field "is_static" Bool])),
    ("LoopParameter", none), ("LambdaParameter", none), ("CatchParameter", none)]

instance : Shaped Variable where
  shape := .record [field "name" String, field "ty" ClassType, field "kind" VariableKind,
    field "is_final" Bool]

instance : Shaped Scope where
  shape := .record [field "enclosing_class" (Option String), field "is_static" Bool,
    field "language_level" UInt32]

instance : Shaped Literal where
  shape := .choice [("Int", some (shape Int64)), ("Bool", some (shape Bool)),
      ("Char", some (shape Char)),
    ("Str", some (shape String)), ("Null", none)]

instance : Shaped BinaryOp where
  shape := .choice [("Add", none), ("Sub", none), ("Mul", none), ("Div", none), ("Rem", none),
    ("Lt", none), ("Le", none), ("Gt", none), ("Ge", none), ("Eq", none), ("Ne", none),
    ("And", none), ("Or", none), ("BitAnd", none), ("BitOr", none), ("BitXor", none)]

instance : Shaped UnaryOp where
  shape :=
    .choice [("Not", none), ("Neg", none), ("PreInc", none), ("PreDec", none), ("PostInc", none),
    ("PostDec", none)]

instance : Shaped (Catch NodeId) where
  shape := .record [field "var" VarId, field "types" (List ClassType), field "body" NodeId]

instance : Shaped (ForEach NodeId) where
  shape :=
    .record [field "var" VarId, field "iterated" (Option NodeId), field "body" (Option NodeId)]

instance : Shaped (Stmt NodeId) where
  shape := .choice [
    ("Block", some (.record [field "stmts" (List NodeId)])),
    ("Expr", some (shape NodeId)),
    ("Local", some (.record [field "var" VarId, field "init" (Option NodeId)])),
    ("If", some (.record [field "cond" (Option NodeId), field "then_branch" (Option NodeId),
      field "else_branch" (Option NodeId)])),
    ("ForEach", some (shape (ForEach NodeId))),
    ("While", some (.record [field "cond" NodeId, field "body" NodeId])),
    ("Labeled", some (.record [field "label" String, field "body" NodeId])),
    ("Break", some (shape (Option String))),
    ("Continue", some (shape (Option String))),
    ("Return", some (shape (Option NodeId))),
    ("Throw", some (shape NodeId)),
    ("Try", some (.record [field "body" NodeId, field "catches" (List (Catch NodeId))])),
    ("Empty", none)]

instance : Shaped (Call NodeId) where
  shape :=
    .record [field "receiver" (Option NodeId), field "method" String, field "args" (List NodeId),
    field "target" (Option MethodId)]

instance : Shaped (Creation NodeId) where
  shape := .record [field "class" ClassType, field "args" (List NodeId),
      field "target" (Option MethodId)]

instance : Shaped (Expr NodeId) where
  shape := .choice [
    ("Literal", some (shape Literal)),
    ("Name", some (.record [field "name" String, field "var" (Option VarId)])),
    ("TypeName", some (shape ClassType)),
    ("This", none),
    ("Super", none),
    ("Field",
    some (.record [field "receiver" NodeId, field "name" String, field "var" (Option VarId)])),
    ("Call", some (shape (Call NodeId))),
    ("New", some (shape (Creation NodeId))),
    ("Binary", some (.record [field "op" BinaryOp, field "lhs" NodeId, field "rhs" NodeId])),
    ("Unary", some (.record [field "op" UnaryOp, field "operand" NodeId])),
    ("Assign", some
      (.record [field "op" (Option BinaryOp), field "target" NodeId, field "value" NodeId])),
    ("Paren", some (shape NodeId)),
    ("Lambda", some (.record [field "params" (List VarId), field "explicit_types" Bool,
      field "body" NodeId])),
    ("MethodRef", some (.record [field "qualifier" NodeId, field "method" String]))]

instance : Shaped (Kind NodeId) where
  shape := .choice [("Stmt", some (shape (Stmt NodeId))), ("Expr", some (shape (Expr NodeId))),
    ("Comment", some (.record [field "text" String]))]

instance : Shaped Node where
  shape := .record [field "kind" (Kind NodeId), field "parent" (Option NodeId), field "span" Span]

instance : Shaped Tree where
  shape := .record [field "nodes" (Array Node), field "vars" (Array Variable), field "root" NodeId,
    field "context" Scope, field "revision" UInt64]

/-! ### Class types -/

namespace Json

variable {item value : Json} {items : List Json} {members : List (String × Json)} {name : String}

theorem depth_pos (json : Json) : 0 < json.depth := by
  cases json <;> simp [depth]

/-- An item is nested at most as deep as the deepest one. -/
theorem depth_le_of_mem (h : item ∈ items) : item.depth ≤ depthOfList items := by
  induction items with
  | nil => simp at h
  | cons first items ih =>
    rw [depthOfList]
    rcases List.mem_cons.1 h with rfl | h
    · exact Nat.le_max_left _ _
    · exact Nat.le_trans (ih h) (Nat.le_max_right _ _)

/-- A member is nested at most as deep as the deepest one. -/
theorem depth_le_of_lookup (h : members.lookup name = some value) :
    value.depth ≤ depthOfMembers members := by
  induction members with
  | nil => simp at h
  | cons first members ih =>
    obtain ⟨other, json⟩ := first
    rw [depthOfMembers]
    rw [List.lookup_cons] at h
    -- the first member of the name is the one that is found
    split at h
    · obtain rfl := Option.some.inj h
      exact Nat.le_max_left _ _
    · exact Nat.le_trans (ih h) (Nat.le_max_right _ _)

end Json

namespace ClassType

theorem toJsons_eq_map (types : List ClassType) : toJsons types = types.map toJson := by
  induction types with
  | nil => rfl
  | cons type types ih => rw [toJsons, ih, List.map_cons]

/-- A class type is read from every variant, in as many steps as that is nested deep. -/
theorem readWithin_of_variant {fuel : Nat} {type : ClassType} {json : Json}
    (h : Variant .classType type.toJson json) (hdepth : json.depth ≤ fuel) :
    readWithin fuel json = some type := by
  induction fuel generalizing type json with
  | zero =>
    -- nothing is written without depth
    have hpos : 0 < json.depth := json.depth_pos
    omega
  | succ fuel ih =>
    obtain ⟨name, args, diamond⟩ := type
    have hvariant : Variant (.record classTypeFields) (toJson ⟨name, args, diamond⟩) json := by
      cases h with
      | same => exact .same
      | classType inside => exact inside
    obtain ⟨record, hrecord, rfl, hfate⟩ :=
      hvariant.exists_fields ["name", "args", "diamond"] rfl rfl (by decide)
    have hname : record.get? "name" = some name :=
      record.get?_of_fate (hfate rfl rfl) (.plain rfl (.string _))
    have hdiamond : record.getD? "diamond" false = some diamond := record.getD?_flag (hfate rfl rfl)
    -- the arguments may not be left out, so they are there with a variant each
    obtain ⟨items, hitems, heach⟩ : ∃ items, record.fields.lookup "args" = some (.list items) ∧
        List.Forall₂ (Variant .classType) (toJsons args) items := by
      have hargs :
          Fate .never (.list .classType) (.list (toJsons args)) (record.fields.lookup "args") :=
        hfate rfl rfl
      generalize record.fields.lookup "args" = found at hargs
      cases hargs with
      | kept inside =>
        obtain ⟨items, rfl, heach⟩ := inside.exists_items
        exact ⟨items, rfl, heach⟩
      | leftOut allowed => simp [Omission.allows] at allowed
    -- each argument is nested less deep than the type
    have hread : items.mapM (readWithin fuel) = some args := by
      have hlist : depthOfList items + 1 ≤ depthOfMembers record.fields := depth_le_of_lookup hitems
      rw [depth] at hdepth
      rw [toJsons_eq_map, List.forall₂_map_left_iff] at heach
      refine mapM_of_forall₂ (List.forall₂_iff_zip.2 ⟨heach.length_eq, fun {arg item} hmem => ?_⟩)
      have hitem : item.depth ≤ depthOfList items := depth_le_of_mem (List.of_mem_zip hmem).2
      exact ih ((List.forall₂_iff_zip.1 heach).2 hmem) (by omega)
    show ((Json.object record.fields).recordOf? _ 2).bind _ = _
    simp [hrecord, hname, hitems, hread, hdiamond]

end ClassType

/-! ### Types, variables and scopes -/

namespace Decode.ReadsAll

theorem bool (b : Bool) : Decode.ReadsAll b := plain rfl (.bool b)

theorem string (s : String) : Decode.ReadsAll s := plain rfl (.string s)

theorem uint32 (n : UInt32) : Decode.ReadsAll n := plain rfl (.uint32 n)

theorem uint64 (n : UInt64) : Decode.ReadsAll n := plain rfl (.uint64 n)

theorem nodeId {id : NodeId} (h : id.index < UInt32.size) : Decode.ReadsAll id :=
  plain rfl (.nodeId h)

theorem varId {id : VarId} (h : id.index < UInt32.size) : Decode.ReadsAll id := plain rfl (.varId h)

theorem methodId {id : MethodId} (h : id.index < UInt32.size) : Decode.ReadsAll id :=
  plain rfl (.methodId h)

theorem classType (type : ClassType) : Decode.ReadsAll type :=
  fun _ hjson => ClassType.readWithin_of_variant hjson (Nat.le_refl _)

theorem span (span : Span) : Decode.ReadsAll span := by
  intro json hjson
  obtain ⟨record, hrecord, -, hfate⟩ := hjson.exists_fields ["file", "lo", "hi"] rfl rfl (by decide)
  have hfile : record.get? "file" = some span.file := record.get?_of_fate (hfate rfl rfl) (uint64 _)
  have hlo : record.get? "lo" = some span.lo := record.get?_of_fate (hfate rfl rfl) (uint32 _)
  have hhi : record.get? "hi" = some span.hi := record.get?_of_fate (hfate rfl rfl) (uint32 _)
  show (json.record? _).bind _ = _
  simp [record?, hrecord, hfile, hlo, hhi]

theorem variableKind (kind : VariableKind) : Decode.ReadsAll kind := by
  intro json hjson
  cases kind with
  | field isStatic =>
    -- a list of the fields would not be taken here, but a variant of an object is an object
    obtain ⟨data, hdata, rfl⟩ := hjson.exists_data rfl
    obtain ⟨record, hrecord, rfl, hfate⟩ := hdata.exists_fields ["is_static"] rfl rfl (by decide)
    have hstatic : record.get? "is_static" = some isStatic :=
      record.get?_of_fate (hfate rfl rfl) (bool _)
    show ((Json.object record.fields).record? _).bind _ = _
    simp [record?, hrecord, hstatic]
  | _ => obtain rfl | rfl := hjson.eq_of_unit <;> rfl

theorem declared (v : Variable) : Decode.ReadsAll v := by
  intro json hjson
  obtain ⟨record, hrecord, -, hfate⟩ :=
    hjson.exists_fields ["name", "ty", "kind", "is_final"] rfl rfl (by decide)
  -- none of the fields may be left out, so each of them is there
  have hname : record.get? "name" = some v.name := record.get?_of_fate (hfate rfl rfl) (string _)
  have htype : record.get? "ty" = some v.type := record.get?_of_fate (hfate rfl rfl) (classType _)
  have hkind : record.get? "kind" = some v.kind :=
    record.get?_of_fate (hfate rfl rfl) (variableKind _)
  have hfinal : record.get? "is_final" = some v.isFinal :=
    record.get?_of_fate (hfate rfl rfl) (bool _)
  show (json.record? _).bind _ = _
  simp [record?, hrecord, hname, htype, hkind, hfinal]

theorem scope (scope : Scope) : Decode.ReadsAll scope := by
  intro json hjson
  obtain ⟨record, hrecord, -, hfate⟩ :=
    hjson.exists_fields ["enclosing_class", "is_static", "language_level"] rfl rfl (by decide)
  -- the enclosing class may be left out, and stands for none then
  have hclass : record.get? "enclosing_class" = some scope.enclosingClass :=
    record.get?_option (hfate rfl rfl) (option rfl fun _ _ => string _)
  have hstatic : record.get? "is_static" = some scope.isStatic :=
    record.get?_of_fate (hfate rfl rfl) (bool _)
  have hlevel : record.get? "language_level" = some scope.languageLevel :=
    record.get?_of_fate (hfate rfl rfl) (uint32 _)
  show (json.record? _).bind _ = _
  simp [record?, hrecord, hclass, hstatic, hlevel]

/-! ### Literals and operators -/

theorem int64 (n : Int64) : Decode.ReadsAll n := plain rfl (.int64 n)

theorem char (c : Char) : Decode.ReadsAll c := plain rfl (.char c)

theorem literal (value : Literal) : Decode.ReadsAll value := by
  intro json hjson
  -- data is written behind the name of the constructor, and `null` has none
  cases value with
  | int n =>
    obtain ⟨data, hdata, rfl⟩ := hjson.exists_data rfl
    exact (int64 n).data? hdata Literal.int
  | bool b =>
    obtain ⟨data, hdata, rfl⟩ := hjson.exists_data rfl
    exact (bool b).data? hdata Literal.bool
  | char c =>
    obtain ⟨data, hdata, rfl⟩ := hjson.exists_data rfl
    exact (char c).data? hdata Literal.char
  | str s =>
    obtain ⟨data, hdata, rfl⟩ := hjson.exists_data rfl
    exact (string s).data? hdata Literal.str
  | null => obtain rfl | rfl := hjson.eq_of_unit <;> rfl

theorem binaryOp (op : BinaryOp) : Decode.ReadsAll op := by
  intro json hjson
  cases op <;> obtain rfl | rfl := hjson.eq_of_unit <;> rfl

theorem unaryOp (op : UnaryOp) : Decode.ReadsAll op := by
  intro json hjson
  cases op <;> obtain rfl | rfl := hjson.eq_of_unit <;> rfl

end Decode.ReadsAll

/-! ### Ids that fit -/

/-- The method that a call or a creation of an object names. -/
def Expr.target? {ι : Type} : Expr ι → Option MethodId
  | call c => c.target
  | create c => c.target
  | _ => none

/-- The ids that a statement holds fit into 32 bits. -/
def Stmt.IdsFit (s : Stmt NodeId) : Prop :=
  (∀ c ∈ s.children, c.index < UInt32.size) ∧ ∀ v ∈ s.vars, v.index < UInt32.size

/-- The ids that an expression holds fit into 32 bits. -/
def Expr.IdsFit (e : Expr NodeId) : Prop :=
  (∀ c ∈ e.children, c.index < UInt32.size) ∧ (∀ v ∈ e.vars, v.index < UInt32.size) ∧
    ∀ m ∈ e.target?, m.index < UInt32.size

/-- The ids that a layer of code holds fit into 32 bits. -/
def Kind.IdsFit : Kind NodeId → Prop
  | .stmt s => s.IdsFit
  | .expr e => e.IdsFit
  | .comment _ => True

/-- The ids that a node holds fit into 32 bits, also that of the node it takes for its parent. -/
def Node.IdsFit (node : Node) : Prop := node.kind.IdsFit ∧ ∀ p ∈ node.parent, p.index < UInt32.size

/-- The ids that a tree holds fit into 32 bits. -/
def Tree.IdsFit (tree : Tree) : Prop :=
  tree.root.index < UInt32.size ∧ ∀ node ∈ tree.nodes, node.IdsFit

instance (s : Stmt NodeId) : Decidable s.IdsFit := inferInstanceAs (Decidable (_ ∧ _))

instance (e : Expr NodeId) : Decidable e.IdsFit := inferInstanceAs (Decidable (_ ∧ _ ∧ _))

instance : (kind : Kind NodeId) → Decidable kind.IdsFit
  | .stmt s => inferInstanceAs (Decidable s.IdsFit)
  | .expr e => inferInstanceAs (Decidable e.IdsFit)
  | .comment _ => inferInstanceAs (Decidable True)

instance (node : Node) : Decidable node.IdsFit := inferInstanceAs (Decidable (_ ∧ _))

instance (tree : Tree) : Decidable tree.IdsFit := inferInstanceAs (Decidable (_ ∧ _))

/-! ### Statements -/

namespace Decode.ReadsAll

/-- A link that may be missing. -/
theorem link {o : Option NodeId} (h : ∀ id ∈ o, id.index < UInt32.size) : Decode.ReadsAll o :=
  option rfl fun id hid => nodeId (h id hid)

/-- A reference that may be missing. -/
theorem reference {o : Option VarId} (h : ∀ id ∈ o, id.index < UInt32.size) : Decode.ReadsAll o :=
  option rfl fun id hid => varId (h id hid)

/-- The name of a method that may be unknown. -/
theorem target {o : Option MethodId} (h : ∀ id ∈ o, id.index < UInt32.size) : Decode.ReadsAll o :=
  option rfl fun id hid => methodId (h id hid)

theorem links {ids : List NodeId} (h : ∀ id ∈ ids, id.index < UInt32.size) : Decode.ReadsAll ids :=
  list fun id hid => nodeId (h id hid)

theorem handler {handler : Catch NodeId} (hvar : handler.var.index < UInt32.size)
    (hbody : handler.body.index < UInt32.size) : Decode.ReadsAll handler := by
  intro json hjson
  obtain ⟨record, hrecord, -, hfate⟩ :=
    hjson.exists_fields ["var", "types", "body"] rfl rfl (by decide)
  have hvar : record.get? "var" = some handler.var :=
    record.get?_of_fate (hfate rfl rfl) (varId hvar)
  have htypes : record.get? "types" = some handler.types :=
    record.get?_of_fate (hfate rfl rfl) (list fun _ _ => classType _)
  have hbody : record.get? "body" = some handler.body :=
    record.get?_of_fate (hfate rfl rfl) (nodeId hbody)
  show (json.record? _).bind _ = _
  simp [record?, hrecord, hvar, htypes, hbody]

theorem forEach {loop : ForEach NodeId}
    (h : (Stmt.forEach loop).IdsFit) : Decode.ReadsAll loop := by
  intro json hjson
  obtain ⟨hparts, hvars⟩ := h
  obtain ⟨record, hrecord, -, hfate⟩ :=
    hjson.exists_fields ["var", "iterated", "body"] rfl rfl (by decide)
  have hvar : record.get? "var" = some loop.var :=
    record.get?_of_fate (hfate rfl rfl) (varId (hvars _ (by simp [Stmt.vars])))
  -- a loop may be written that lacks its collection or its body
  have hiterated : record.get? "iterated" = some loop.iterated :=
    record.get?_option (hfate rfl rfl) (link fun c hc => hparts c (by simp_all [Stmt.children]))
  have hbody : record.get? "body" = some loop.body :=
    record.get?_option (hfate rfl rfl) (link fun c hc => hparts c (by simp_all [Stmt.children]))
  show (json.record? _).bind _ = _
  simp [record?, hrecord, hvar, hiterated, hbody]

theorem stmt {s : Stmt NodeId} (h : s.IdsFit) : Decode.ReadsAll s := by
  intro json hjson
  obtain ⟨hparts, hvars⟩ := id h
  -- the name of the constructor is kept; behind it is a record, or data of another type
  cases s with
  | block stmts =>
    obtain ⟨data, rfl, record, hrecord, hfate⟩ :=
      hjson.exists_fields_data rfl ["stmts"] rfl rfl (by decide)
    have hstmts : record.get? "stmts" = some stmts :=
      record.get?_of_fate (hfate rfl rfl) (links hparts)
    show fields? _ _ (some data) = _
    simp [hrecord, hstmts]
  | expr value =>
    obtain ⟨data, hdata, rfl⟩ := hjson.exists_data rfl
    exact (nodeId (hparts value (by simp [Stmt.children]))).data? hdata Stmt.expr
  | declare v init =>
    obtain ⟨data, rfl, record, hrecord, hfate⟩ :=
      hjson.exists_fields_data rfl ["var", "init"] rfl rfl (by decide)
    have hvar : record.get? "var" = some v :=
      record.get?_of_fate (hfate rfl rfl) (varId (hvars v (by simp [Stmt.vars])))
    have hinit : record.get? "init" = some init :=
      record.get?_option (hfate rfl rfl) (link fun c hc => hparts c (by simp_all [Stmt.children]))
    show fields? _ _ (some data) = _
    simp [hrecord, hvar, hinit]
  | branch cond thenBranch elseBranch =>
    obtain ⟨data, rfl, record, hrecord, hfate⟩ :=
      hjson.exists_fields_data rfl ["cond", "then_branch", "else_branch"] rfl rfl (by decide)
    have hcond : record.get? "cond" = some cond :=
      record.get?_option (hfate rfl rfl) (link fun c hc => hparts c (by simp_all [Stmt.children]))
    have hthen : record.get? "then_branch" = some thenBranch :=
      record.get?_option (hfate rfl rfl) (link fun c hc => hparts c (by simp_all [Stmt.children]))
    have helse : record.get? "else_branch" = some elseBranch :=
      record.get?_option (hfate rfl rfl) (link fun c hc => hparts c (by simp_all [Stmt.children]))
    show fields? _ _ (some data) = _
    simp [hrecord, hcond, hthen, helse]
  | forEach loop =>
    obtain ⟨data, hdata, rfl⟩ := hjson.exists_data rfl
    exact (forEach h).data? hdata Stmt.forEach
  | whileLoop cond body =>
    obtain ⟨data, rfl, record, hrecord, hfate⟩ :=
      hjson.exists_fields_data rfl ["cond", "body"] rfl rfl (by decide)
    have hcond : record.get? "cond" = some cond :=
      record.get?_of_fate (hfate rfl rfl) (nodeId (hparts cond (by simp [Stmt.children])))
    have hbody : record.get? "body" = some body :=
      record.get?_of_fate (hfate rfl rfl) (nodeId (hparts body (by simp [Stmt.children])))
    show fields? _ _ (some data) = _
    simp [hrecord, hcond, hbody]
  | labeled label body =>
    obtain ⟨data, rfl, record, hrecord, hfate⟩ :=
      hjson.exists_fields_data rfl ["label", "body"] rfl rfl (by decide)
    have hlabel : record.get? "label" = some label := record.get?_of_fate (hfate rfl rfl) (string _)
    have hbody : record.get? "body" = some body :=
      record.get?_of_fate (hfate rfl rfl) (nodeId (hparts body (by simp [Stmt.children])))
    show fields? _ _ (some data) = _
    simp [hrecord, hlabel, hbody]
  | breakTo label =>
    obtain ⟨data, hdata, rfl⟩ := hjson.exists_data rfl
    exact (option rfl fun _ _ => string _).data? hdata Stmt.breakTo
  | continueTo label =>
    obtain ⟨data, hdata, rfl⟩ := hjson.exists_data rfl
    exact (option rfl fun _ _ => string _).data? hdata Stmt.continueTo
  | giveBack value =>
    obtain ⟨data, hdata, rfl⟩ := hjson.exists_data rfl
    exact (link fun c hc => hparts c (by simp_all [Stmt.children])).data? hdata Stmt.giveBack
  | throwValue value =>
    obtain ⟨data, hdata, rfl⟩ := hjson.exists_data rfl
    exact (nodeId (hparts value (by simp [Stmt.children]))).data? hdata Stmt.throwValue
  | tryCatch body handlers =>
    obtain ⟨data, rfl, record, hrecord, hfate⟩ :=
      hjson.exists_fields_data rfl ["body", "catches"] rfl rfl (by decide)
    have hbody : record.get? "body" = some body :=
      record.get?_of_fate (hfate rfl rfl) (nodeId (hparts body (by simp [Stmt.children])))
    -- the bodies of the handlers are parts, and so their ids fit as well
    have hhandlers : record.get? "catches" = some handlers :=
      record.get?_of_fate (hfate rfl rfl) (list fun c hc =>
        handler (hvars _ (List.mem_map_of_mem hc))
          (hparts _ (List.mem_cons_of_mem _ (List.mem_map_of_mem hc))))
    show fields? _ _ (some data) = _
    simp [hrecord, hbody, hhandlers]
  | empty => obtain rfl | rfl := hjson.eq_of_unit <;> rfl

/-! ### Expressions -/

theorem call {c : Call NodeId} (h : (Expr.call c).IdsFit) : Decode.ReadsAll c := by
  intro json hjson
  obtain ⟨hparts, -, htarget⟩ := h
  obtain ⟨record, hrecord, -, hfate⟩ :=
    hjson.exists_fields ["receiver", "method", "args", "target"] rfl rfl (by decide)
  -- the receiver and the method that is meant may be left out
  have hreceiver : record.get? "receiver" = some c.receiver :=
    record.get?_option (hfate rfl rfl) (link fun r hr => hparts r (by simp_all [Expr.children]))
  have hmethod : record.get? "method" = some c.method :=
    record.get?_of_fate (hfate rfl rfl) (string _)
  have hargs : record.get? "args" = some c.args :=
    record.get?_of_fate (hfate rfl rfl) (links fun a ha => hparts a (by simp_all [Expr.children]))
  have htarget : record.get? "target" = some c.target :=
    record.get?_option (hfate rfl rfl) (target htarget)
  show (json.record? _).bind _ = _
  simp [record?, hrecord, hreceiver, hmethod, hargs, htarget]

theorem creation {c : Creation NodeId} (h : (Expr.create c).IdsFit) : Decode.ReadsAll c := by
  intro json hjson
  obtain ⟨hparts, -, htarget⟩ := h
  obtain ⟨record, hrecord, -, hfate⟩ :=
    hjson.exists_fields ["class", "args", "target"] rfl rfl (by decide)
  have hclass : record.get? "class" = some c.type :=
    record.get?_of_fate (hfate rfl rfl) (classType _)
  have hargs : record.get? "args" = some c.args :=
    record.get?_of_fate (hfate rfl rfl) (links hparts)
  have htarget : record.get? "target" = some c.target :=
    record.get?_option (hfate rfl rfl) (target htarget)
  show (json.record? _).bind _ = _
  simp [record?, hrecord, hclass, hargs, htarget]

theorem expr {e : Expr NodeId} (h : e.IdsFit) : Decode.ReadsAll e := by
  intro json hjson
  obtain ⟨hparts, hvars, -⟩ := id h
  -- as for statements
  cases e with
  | literal value =>
    obtain ⟨data, hdata, rfl⟩ := hjson.exists_data rfl
    exact (literal value).data? hdata Expr.literal
  | name n v =>
    obtain ⟨data, rfl, record, hrecord, hfate⟩ :=
      hjson.exists_fields_data rfl ["name", "var"] rfl rfl (by decide)
    have hname : record.get? "name" = some n := record.get?_of_fate (hfate rfl rfl) (string _)
    have hvar : record.get? "var" = some v :=
      record.get?_option (hfate rfl rfl) (reference fun v hv => hvars v (by simp_all [Expr.vars]))
    show fields? _ _ (some data) = _
    simp [hrecord, hname, hvar]
  | typeName type =>
    obtain ⟨data, hdata, rfl⟩ := hjson.exists_data rfl
    exact (classType type).data? hdata Expr.typeName
  | thisRef => obtain rfl | rfl := hjson.eq_of_unit <;> rfl
  | superRef => obtain rfl | rfl := hjson.eq_of_unit <;> rfl
  | field receiver n v =>
    obtain ⟨data, rfl, record, hrecord, hfate⟩ :=
      hjson.exists_fields_data rfl ["receiver", "name", "var"] rfl rfl (by decide)
    have hreceiver : record.get? "receiver" = some receiver :=
      record.get?_of_fate (hfate rfl rfl) (nodeId (hparts receiver (by simp [Expr.children])))
    have hname : record.get? "name" = some n := record.get?_of_fate (hfate rfl rfl) (string _)
    have hvar : record.get? "var" = some v :=
      record.get?_option (hfate rfl rfl) (reference fun v hv => hvars v (by simp_all [Expr.vars]))
    show fields? _ _ (some data) = _
    simp [hrecord, hreceiver, hname, hvar]
  | call c =>
    obtain ⟨data, hdata, rfl⟩ := hjson.exists_data rfl
    exact (call h).data? hdata Expr.call
  | create c =>
    obtain ⟨data, hdata, rfl⟩ := hjson.exists_data rfl
    exact (creation h).data? hdata Expr.create
  | binary op lhs rhs =>
    obtain ⟨data, rfl, record, hrecord, hfate⟩ :=
      hjson.exists_fields_data rfl ["op", "lhs", "rhs"] rfl rfl (by decide)
    have hop : record.get? "op" = some op := record.get?_of_fate (hfate rfl rfl) (binaryOp _)
    have hlhs : record.get? "lhs" = some lhs :=
      record.get?_of_fate (hfate rfl rfl) (nodeId (hparts lhs (by simp [Expr.children])))
    have hrhs : record.get? "rhs" = some rhs :=
      record.get?_of_fate (hfate rfl rfl) (nodeId (hparts rhs (by simp [Expr.children])))
    show fields? _ _ (some data) = _
    simp [hrecord, hop, hlhs, hrhs]
  | unary op operand =>
    obtain ⟨data, rfl, record, hrecord, hfate⟩ :=
      hjson.exists_fields_data rfl ["op", "operand"] rfl rfl (by decide)
    have hop : record.get? "op" = some op := record.get?_of_fate (hfate rfl rfl) (unaryOp _)
    have hoperand : record.get? "operand" = some operand :=
      record.get?_of_fate (hfate rfl rfl) (nodeId (hparts operand (by simp [Expr.children])))
    show fields? _ _ (some data) = _
    simp [hrecord, hop, hoperand]
  | assign op left right =>
    obtain ⟨data, rfl, record, hrecord, hfate⟩ :=
      hjson.exists_fields_data rfl ["op", "target", "value"] rfl rfl (by decide)
    have hop : record.get? "op" = some op :=
      record.get?_option (hfate rfl rfl) (option rfl fun _ _ => binaryOp _)
    have hleft : record.get? "target" = some left :=
      record.get?_of_fate (hfate rfl rfl) (nodeId (hparts left (by simp [Expr.children])))
    have hright : record.get? "value" = some right :=
      record.get?_of_fate (hfate rfl rfl) (nodeId (hparts right (by simp [Expr.children])))
    show fields? _ _ (some data) = _
    simp [hrecord, hop, hleft, hright]
  | paren inner =>
    obtain ⟨data, hdata, rfl⟩ := hjson.exists_data rfl
    exact (nodeId (hparts inner (by simp [Expr.children]))).data? hdata Expr.paren
  | lambda params explicitTypes body =>
    obtain ⟨data, rfl, record, hrecord, hfate⟩ :=
      hjson.exists_fields_data rfl ["params", "explicit_types", "body"] rfl rfl (by decide)
    have hparams : record.get? "params" = some params :=
      record.get?_of_fate (hfate rfl rfl) (list fun v hv => varId (hvars v hv))
    have hexplicit : record.get? "explicit_types" = some explicitTypes :=
      record.get?_of_fate (hfate rfl rfl) (bool _)
    have hbody : record.get? "body" = some body :=
      record.get?_of_fate (hfate rfl rfl) (nodeId (hparts body (by simp [Expr.children])))
    show fields? _ _ (some data) = _
    simp [hrecord, hparams, hexplicit, hbody]
  | methodRef qualifier method =>
    obtain ⟨data, rfl, record, hrecord, hfate⟩ :=
      hjson.exists_fields_data rfl ["qualifier", "method"] rfl rfl (by decide)
    have hqualifier : record.get? "qualifier" = some qualifier :=
      record.get?_of_fate (hfate rfl rfl) (nodeId (hparts qualifier (by simp [Expr.children])))
    have hmethod : record.get? "method" = some method :=
      record.get?_of_fate (hfate rfl rfl) (string _)
    show fields? _ _ (some data) = _
    simp [hrecord, hqualifier, hmethod]

/-! ### Nodes and trees -/

theorem kind {kind : Kind NodeId} (h : kind.IdsFit) : Decode.ReadsAll kind := by
  intro json hjson
  cases kind with
  | stmt s =>
    obtain ⟨data, hdata, rfl⟩ := hjson.exists_data rfl
    exact (stmt h).data? hdata Kind.stmt
  | expr e =>
    obtain ⟨data, hdata, rfl⟩ := hjson.exists_data rfl
    exact (expr h).data? hdata Kind.expr
  | comment text =>
    obtain ⟨data, rfl, record, hrecord, hfate⟩ :=
      hjson.exists_fields_data rfl ["text"] rfl rfl (by decide)
    have htext : record.get? "text" = some text := record.get?_of_fate (hfate rfl rfl) (string _)
    show fields? _ _ (some data) = _
    simp [hrecord, htext]

theorem node {node : Node} (h : node.IdsFit) : Decode.ReadsAll node := by
  intro json hjson
  obtain ⟨record, hrecord, -, hfate⟩ :=
    hjson.exists_fields ["kind", "parent", "span"] rfl rfl (by decide)
  have hkind : record.get? "kind" = some node.kind := record.get?_of_fate (hfate rfl rfl) (kind h.1)
  have hparent : record.get? "parent" = some node.parent :=
    record.get?_option (hfate rfl rfl) (link h.2)
  have hspan : record.get? "span" = some node.span := record.get?_of_fate (hfate rfl rfl) (span _)
  show (json.record? _).bind _ = _
  simp [record?, hrecord, hkind, hparent, hspan]

theorem tree {tree : Tree} (h : tree.IdsFit) : Decode.ReadsAll tree := by
  intro json hjson
  obtain ⟨record, hrecord, -, hfate⟩ :=
    hjson.exists_fields ["nodes", "vars", "root", "context", "revision"] rfl rfl (by decide)
  -- no field may be left out, and each is read from the variant that it has got
  have hnodes : record.get? "nodes" = some tree.nodes :=
    record.get?_of_fate (hfate rfl rfl) (array fun n hn => node (h.2 n hn))
  have hvars : record.get? "vars" = some tree.vars :=
    record.get?_of_fate (hfate rfl rfl) (array fun _ _ => declared _)
  have hroot : record.get? "root" = some tree.root :=
    record.get?_of_fate (hfate rfl rfl) (nodeId h.1)
  have hscope : record.get? "context" = some tree.scope :=
    record.get?_of_fate (hfate rfl rfl) (scope _)
  have hrevision : record.get? "revision" = some tree.revision :=
    record.get?_of_fate (hfate rfl rfl) (uint64 _)
  show (json.record? _).bind _ = _
  simp [record?, hrecord, hnodes, hvars, hroot, hscope, hrevision]

end Decode.ReadsAll

namespace Tree

/-- **A tree survives being written**, whatever it holds: it is read from its written form and from
every variant of that as what it was. So no two trees have a variant in common. -/
theorem survives_variants (tree : Tree) (h : tree.IdsFit) :
    decode? (encode tree) = some tree ∧
      (∀ json, Variant (shape Tree) (encode tree) json → decode? json = some tree) ∧
      ∀ (other : Tree) (json : Json), other.IdsFit → Variant (shape Tree) (encode other) json →
        Variant (shape Tree) (encode tree) json → other = tree := by
  have hall : Decode.ReadsAll tree := .tree h
  refine ⟨hall.reads, hall, fun other json hother hvariant hvariant' => ?_⟩
  -- a common variant would be read as both of them
  have hread : decode? json = some other := Decode.ReadsAll.tree hother json hvariant
  rw [hall json hvariant'] at hread
  exact (Option.some.inj hread).symm

/-- A tree that does not hold together: its top is no node, a node is its own part, and both nodes
name parents that do not link them. -/
def disjointed : Tree where
  nodes := #[
    ⟨.stmt (.declare ⟨7⟩ none), some ⟨4294967295⟩, ⟨0, 3, 1⟩⟩,
    ⟨.expr (.paren ⟨1⟩), some ⟨0⟩, ⟨18446744073709551615, 0, 0⟩⟩,
    ⟨.expr .thisRef, none, ⟨0, 0, 0⟩⟩]
  vars := #[⟨"x", ⟨"List", [.simple "A"], false⟩, .localVariable, false⟩]
  root := ⟨4294967295⟩
  scope := .unknown
  revision := 5

/-- A variant of its written form. A field `note` has been added to the tree and twice to a node,
the missing initial value, the missing parent, the missing class and two flags `diamond` have been
left out, and two constructors without data have the member `null`. -/
def disjointedVariant : Json :=
  .object [("note", .list []),
    ("nodes", .list [
      .object [
        ("kind", .variant "Stmt" (.variant "Local" (.object [("var", .int 7)]))),
        ("note", .null), ("parent", .int 4294967295), ("note", .unread),
        ("span", .object [("file", .int 0), ("lo", .int 3), ("hi", .int 1)])],
      encode disjointed.nodes[1],
      .object [
        ("kind", .variant "Expr" (.variant "This" .null)),
        ("span", .object [("file", .int 0), ("lo", .int 0), ("hi", .int 0)])]]),
    ("vars", .list [
      .object [("name", .str "x"),
        ("ty", .object [("name", .str "List"),
          ("args", .list [.object [("name", .str "A"), ("args", .list [])]])]),
        ("kind", .variant "Local" .null), ("is_final", .bool false)]]),
    ("root", .int 4294967295),
    ("context", .object [("is_static", .bool true), ("language_level", .int 8)]),
    ("revision", .int 5)]

theorem variant_disjointed : Variant (shape Tree) (encode disjointed) disjointedVariant := by
  -- from the inside out: the two nodes, the type of the variable, the variable and the scope
  have hfirst : Variant (shape Node) (encode disjointed.nodes[0]) (.object [
      ("kind", .variant "Stmt" (.variant "Local" (.object [("var", .int 7)]))),
      ("note", .null), ("parent", .int 4294967295), ("note", .unread),
      ("span", .object [("file", .int 0), ("lo", .int 3), ("hi", .int 1)])]) := by
    refine .record (.keep rfl (.add rfl (.keep rfl (.add rfl (.keep rfl .nil))))) ?_
    simp only [List.forall_mem_cons]
    refine ⟨.data rfl (.data rfl (.record (.keep rfl (.leaveOut rfl rfl .nil)) ?_)), .same,
      .same, by simp⟩
    simp only [List.forall_mem_cons]
    exact ⟨.same, by simp⟩
  have hlast : Variant (shape Node) (encode disjointed.nodes[2]) (.object [
      ("kind", .variant "Expr" (.variant "This" .null)),
      ("span", .object [("file", .int 0), ("lo", .int 0), ("hi", .int 0)])]) := by
    refine .record (.keep rfl (.leaveOut rfl rfl (.keep rfl .nil))) ?_
    simp only [List.forall_mem_cons]
    exact ⟨.data rfl (.unit rfl), .same, by simp⟩
  have harg : Variant .classType (encode (ClassType.simple "A"))
      (.object [("name", .str "A"), ("args", .list [])]) := by
    refine .classType (.record (.keep rfl (.keep rfl (.leaveOut rfl rfl .nil))) ?_)
    simp only [List.forall_mem_cons]
    exact ⟨.same, .same, by simp⟩
  have htype : Variant .classType (encode disjointed.vars[0].type)
      (.object [("name", .str "List"),
        ("args", .list [.object [("name", .str "A"), ("args", .list [])]])]) := by
    refine .classType (.record (.keep rfl (.keep rfl (.leaveOut rfl rfl .nil))) ?_)
    simp only [List.forall_mem_cons]
    exact ⟨.same, .of_items (.cons harg .nil), by simp⟩
  have hvar : Variant (shape Variable) (encode disjointed.vars[0])
      (.object [("name", .str "x"),
        ("ty", .object [("name", .str "List"),
          ("args", .list [.object [("name", .str "A"), ("args", .list [])]])]),
        ("kind", .variant "Local" .null), ("is_final", .bool false)]) := by
    refine .record (.keep rfl (.keep rfl (.keep rfl (.keep rfl .nil)))) ?_
    simp only [List.forall_mem_cons]
    exact ⟨.same, htype, .unit rfl, .same, by simp⟩
  have hscope : Variant (shape Scope) (encode disjointed.scope)
      (.object [("is_static", .bool true), ("language_level", .int 8)]) := by
    refine .record (.leaveOut rfl rfl (.keep rfl (.keep rfl .nil))) ?_
    simp only [List.forall_mem_cons]
    exact ⟨.same, .same, by simp⟩
  -- and the tree around them, with one more field in front
  refine .record (.add rfl (.keep rfl (.keep rfl (.keep rfl (.keep rfl (.keep rfl .nil)))))) ?_
  simp only [List.forall_mem_cons]
  exact ⟨.of_items (.cons hfirst (.cons .same (.cons hlast .nil))), .of_items (.cons hvar .nil),
    .same, hscope, .same, by simp⟩

theorem survives_disjointed :
    disjointed.IdsFit ∧ decode? (encode disjointed) = some disjointed ∧
      decode? disjointedVariant = some disjointed := by
  have hfit : disjointed.IdsFit := by decide
  obtain ⟨hread, hall, -⟩ := survives_variants disjointed hfit
  exact ⟨hfit, hread, hall _ variant_disjointed⟩

end Tree

end LoopToStream
