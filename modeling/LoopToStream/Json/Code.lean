import LoopToStream.Json.Basic
import LoopToStream.Tree.Basic

/-!
# Code as JSON

The written form of trees and of what they are made of. Each type has its form in both
directions, next to each other: a record by its fields, a choice by the names of its
constructors, an id by its number. A tree is written with its parent links and read with the
parent links that are written, whatever its parts say.
-/

namespace LoopToStream

/-! ### Ids and places -/

/-- Ids are written as 32-bit numbers. -/
def Json.index? (json : Json) : Option Nat := json.natBelow? UInt32.size

instance : Encode NodeId := ⟨fun id => encode id.index⟩

instance : Decode NodeId := ⟨fun json => json.index?.map NodeId.mk, none⟩

instance : Encode VarId := ⟨fun id => encode id.index⟩

instance : Decode VarId := ⟨fun json => json.index?.map VarId.mk, none⟩

instance : Encode MethodId := ⟨fun id => encode id.index⟩

instance : Decode MethodId := ⟨fun json => json.index?.map MethodId.mk, none⟩

instance : Encode Span where
  encode span :=
    .object [("file", encode span.file), ("lo", encode span.lo), ("hi", encode span.hi)]

instance : Decode Span where
  decode? json := do
    let record ← json.record? ["file", "lo", "hi"]
    return ⟨← record.get? "file", ← record.get? "lo", ← record.get? "hi"⟩

/-! ### Types, variables and scopes -/

namespace ClassType

mutual

/-- The form of a type. -/
def toJson : ClassType → Json
  | ⟨name, args, diamond⟩ =>
    .object [("name", .str name), ("args", .list (toJsons args)), ("diamond", .bool diamond)]

/-- The forms of the types of a list. -/
def toJsons : List ClassType → List Json
  | [] => []
  | type :: rest => type.toJson :: toJsons rest

end

/-- Reads a type whose form is nested at most so deep. A missing `diamond` is `false`. -/
def readWithin : Nat → Json → Option ClassType
  | 0, _ => none
  | fuel + 1, json => do
    let record ← json.recordOf? ["name", "args", "diamond"] 2
    let name ← record.get? "name"
    let .list args ← record.fields.lookup "args" | none
    return ⟨name, ← args.mapM (readWithin fuel), ← record.getD? "diamond" false⟩

end ClassType

instance : Encode ClassType := ⟨ClassType.toJson⟩

instance : Decode ClassType := ⟨fun json => ClassType.readWithin json.depth json, none⟩

instance : Encode VariableKind where
  encode
    | .localVariable => .str "Local"
    | .parameter => .str "Parameter"
    | .field isStatic => .variant "Field" (.object [("is_static", encode isStatic)])
    | .loopParameter => .str "LoopParameter"
    | .lambdaParameter => .str "LambdaParameter"
    | .catchParameter => .str "CatchParameter"

instance : Decode VariableKind where
  decode? json := do
    match ← json.variant? with
    | ("Local", data) => Json.unit? .localVariable data
    | ("Parameter", data) => Json.unit? .parameter data
    | ("Field", some (.object members)) =>
      let record ← (Json.object members).record? ["is_static"]
      return .field (← record.get? "is_static")
    | ("LoopParameter", data) => Json.unit? .loopParameter data
    | ("LambdaParameter", data) => Json.unit? .lambdaParameter data
    | ("CatchParameter", data) => Json.unit? .catchParameter data
    | _ => none

instance : Encode Variable where
  encode v :=
    .object [("name", encode v.name), ("ty", encode v.type), ("kind", encode v.kind),
      ("is_final", encode v.isFinal)]

instance : Decode Variable where
  decode? json := do
    let record ← json.record? ["name", "ty", "kind", "is_final"]
    return ⟨← record.get? "name", ← record.get? "ty", ← record.get? "kind",
      ← record.get? "is_final"⟩

instance : Encode Scope where
  encode scope :=
    .object [("enclosing_class", encode scope.enclosingClass),
      ("is_static", encode scope.isStatic), ("language_level", encode scope.languageLevel)]

instance : Decode Scope where
  decode? json := do
    let record ← json.record? ["enclosing_class", "is_static", "language_level"]
    return ⟨← record.get? "enclosing_class", ← record.get? "is_static",
      ← record.get? "language_level"⟩

/-! ### Literals and operators -/

instance : Encode Literal where
  encode
    | .int value => .variant "Int" (encode value)
    | .bool value => .variant "Bool" (encode value)
    | .char value => .variant "Char" (encode value)
    | .str value => .variant "Str" (encode value)
    | .null => .str "Null"

instance : Decode Literal where
  decode? json := do
    match ← json.variant? with
    | ("Int", data) => Json.data? .int data
    | ("Bool", data) => Json.data? .bool data
    | ("Char", data) => Json.data? .char data
    | ("Str", data) => Json.data? .str data
    | ("Null", data) => Json.unit? .null data
    | _ => none

instance : Encode BinaryOp where
  encode op := .str <| match op with
    | .add => "Add"
    | .sub => "Sub"
    | .mul => "Mul"
    | .div => "Div"
    | .rem => "Rem"
    | .lt => "Lt"
    | .le => "Le"
    | .gt => "Gt"
    | .ge => "Ge"
    | .eq => "Eq"
    | .ne => "Ne"
    | .and => "And"
    | .or => "Or"
    | .bitAnd => "BitAnd"
    | .bitOr => "BitOr"
    | .bitXor => "BitXor"

instance : Decode BinaryOp where
  decode? json := do
    match ← json.variant? with
    | ("Add", data) => Json.unit? .add data
    | ("Sub", data) => Json.unit? .sub data
    | ("Mul", data) => Json.unit? .mul data
    | ("Div", data) => Json.unit? .div data
    | ("Rem", data) => Json.unit? .rem data
    | ("Lt", data) => Json.unit? .lt data
    | ("Le", data) => Json.unit? .le data
    | ("Gt", data) => Json.unit? .gt data
    | ("Ge", data) => Json.unit? .ge data
    | ("Eq", data) => Json.unit? .eq data
    | ("Ne", data) => Json.unit? .ne data
    | ("And", data) => Json.unit? .and data
    | ("Or", data) => Json.unit? .or data
    | ("BitAnd", data) => Json.unit? .bitAnd data
    | ("BitOr", data) => Json.unit? .bitOr data
    | ("BitXor", data) => Json.unit? .bitXor data
    | _ => none

instance : Encode UnaryOp where
  encode op := .str <| match op with
    | .not => "Not"
    | .neg => "Neg"
    | .preInc => "PreInc"
    | .preDec => "PreDec"
    | .postInc => "PostInc"
    | .postDec => "PostDec"

instance : Decode UnaryOp where
  decode? json := do
    match ← json.variant? with
    | ("Not", data) => Json.unit? .not data
    | ("Neg", data) => Json.unit? .neg data
    | ("PreInc", data) => Json.unit? .preInc data
    | ("PreDec", data) => Json.unit? .preDec data
    | ("PostInc", data) => Json.unit? .postInc data
    | ("PostDec", data) => Json.unit? .postDec data
    | _ => none

/-! ### Statements -/

instance : Encode (Catch NodeId) where
  encode handler :=
    .object [("var", encode handler.var), ("types", encode handler.types),
      ("body", encode handler.body)]

instance : Decode (Catch NodeId) where
  decode? json := do
    let record ← json.record? ["var", "types", "body"]
    return ⟨← record.get? "var", ← record.get? "types", ← record.get? "body"⟩

instance : Encode (ForEach NodeId) where
  encode loop :=
    .object [("var", encode loop.var), ("iterated", encode loop.iterated),
      ("body", encode loop.body)]

instance : Decode (ForEach NodeId) where
  decode? json := do
    let record ← json.record? ["var", "iterated", "body"]
    return ⟨← record.get? "var", ← record.get? "iterated", ← record.get? "body"⟩

instance : Encode (Stmt NodeId) where
  encode
    | .block stmts => .variant "Block" (.object [("stmts", encode stmts)])
    | .expr value => .variant "Expr" (encode value)
    | .declare var init =>
      .variant "Local" (.object [("var", encode var), ("init", encode init)])
    | .branch cond thenBranch elseBranch =>
      .variant "If" (.object [("cond", encode cond), ("then_branch", encode thenBranch),
        ("else_branch", encode elseBranch)])
    | .forEach loop => .variant "ForEach" (encode loop)
    | .whileLoop cond body =>
      .variant "While" (.object [("cond", encode cond), ("body", encode body)])
    | .labeled label body =>
      .variant "Labeled" (.object [("label", encode label), ("body", encode body)])
    | .breakTo label => .variant "Break" (encode label)
    | .continueTo label => .variant "Continue" (encode label)
    | .giveBack value => .variant "Return" (encode value)
    | .throwValue value => .variant "Throw" (encode value)
    | .tryCatch body handlers =>
      .variant "Try" (.object [("body", encode body), ("catches", encode handlers)])
    | .empty => .str "Empty"

instance : Decode (Stmt NodeId) where
  decode? json := do
    match ← json.variant? with
    | ("Block", data) => Json.fields? ["stmts"] (fun r => do return .block (← r.get? "stmts")) data
    | ("Expr", data) => Json.data? .expr data
    | ("Local", data) =>
      Json.fields? ["var", "init"]
        (fun r => do return .declare (← r.get? "var") (← r.get? "init")) data
    | ("If", data) =>
      Json.fields? ["cond", "then_branch", "else_branch"]
        (fun r => do
          return .branch (← r.get? "cond") (← r.get? "then_branch") (← r.get? "else_branch"))
        data
    | ("ForEach", data) => Json.data? .forEach data
    | ("While", data) =>
      Json.fields? ["cond", "body"]
        (fun r => do return .whileLoop (← r.get? "cond") (← r.get? "body")) data
    | ("Labeled", data) =>
      Json.fields? ["label", "body"]
        (fun r => do return .labeled (← r.get? "label") (← r.get? "body")) data
    | ("Break", data) => Json.data? .breakTo data
    | ("Continue", data) => Json.data? .continueTo data
    | ("Return", data) => Json.data? .giveBack data
    | ("Throw", data) => Json.data? .throwValue data
    | ("Try", data) =>
      Json.fields? ["body", "catches"]
        (fun r => do return .tryCatch (← r.get? "body") (← r.get? "catches")) data
    | ("Empty", data) => Json.unit? .empty data
    | _ => none

/-! ### Expressions -/

instance : Encode (Call NodeId) where
  encode c :=
    .object [("receiver", encode c.receiver), ("method", encode c.method),
      ("args", encode c.args), ("target", encode c.target)]

instance : Decode (Call NodeId) where
  decode? json := do
    let record ← json.record? ["receiver", "method", "args", "target"]
    return ⟨← record.get? "receiver", ← record.get? "method", ← record.get? "args",
      ← record.get? "target"⟩

instance : Encode (Creation NodeId) where
  encode c :=
    .object [("class", encode c.type), ("args", encode c.args), ("target", encode c.target)]

instance : Decode (Creation NodeId) where
  decode? json := do
    let record ← json.record? ["class", "args", "target"]
    return ⟨← record.get? "class", ← record.get? "args", ← record.get? "target"⟩

instance : Encode (Expr NodeId) where
  encode
    | .literal value => .variant "Literal" (encode value)
    | .name n var => .variant "Name" (.object [("name", encode n), ("var", encode var)])
    | .typeName type => .variant "TypeName" (encode type)
    | .thisRef => .str "This"
    | .superRef => .str "Super"
    | .field receiver n var =>
      .variant "Field" (.object [("receiver", encode receiver), ("name", encode n),
        ("var", encode var)])
    | .call c => .variant "Call" (encode c)
    | .create c => .variant "New" (encode c)
    | .binary op lhs rhs =>
      .variant "Binary" (.object [("op", encode op), ("lhs", encode lhs), ("rhs", encode rhs)])
    | .unary op operand =>
      .variant "Unary" (.object [("op", encode op), ("operand", encode operand)])
    | .assign op target value =>
      .variant "Assign" (.object [("op", encode op), ("target", encode target),
        ("value", encode value)])
    | .paren inner => .variant "Paren" (encode inner)
    | .lambda params explicitTypes body =>
      .variant "Lambda" (.object [("params", encode params),
        ("explicit_types", encode explicitTypes), ("body", encode body)])
    | .methodRef qualifier method =>
      .variant "MethodRef" (.object [("qualifier", encode qualifier),
        ("method", encode method)])

instance : Decode (Expr NodeId) where
  decode? json := do
    match ← json.variant? with
    | ("Literal", data) => Json.data? .literal data
    | ("Name", data) =>
      Json.fields? ["name", "var"]
        (fun r => do return .name (← r.get? "name") (← r.get? "var")) data
    | ("TypeName", data) => Json.data? .typeName data
    | ("This", data) => Json.unit? .thisRef data
    | ("Super", data) => Json.unit? .superRef data
    | ("Field", data) =>
      Json.fields? ["receiver", "name", "var"]
        (fun r => do return .field (← r.get? "receiver") (← r.get? "name") (← r.get? "var")) data
    | ("Call", data) => Json.data? .call data
    | ("New", data) => Json.data? .create data
    | ("Binary", data) =>
      Json.fields? ["op", "lhs", "rhs"]
        (fun r => do return .binary (← r.get? "op") (← r.get? "lhs") (← r.get? "rhs")) data
    | ("Unary", data) =>
      Json.fields? ["op", "operand"]
        (fun r => do return .unary (← r.get? "op") (← r.get? "operand")) data
    | ("Assign", data) =>
      Json.fields? ["op", "target", "value"]
        (fun r => do return .assign (← r.get? "op") (← r.get? "target") (← r.get? "value")) data
    | ("Paren", data) => Json.data? .paren data
    | ("Lambda", data) =>
      Json.fields? ["params", "explicit_types", "body"]
        (fun r => do
          return .lambda (← r.get? "params") (← r.get? "explicit_types") (← r.get? "body"))
        data
    | ("MethodRef", data) =>
      Json.fields? ["qualifier", "method"]
        (fun r => do return .methodRef (← r.get? "qualifier") (← r.get? "method")) data
    | _ => none

/-! ### Nodes and trees -/

instance : Encode (Kind NodeId) where
  encode
    | .stmt s => .variant "Stmt" (encode s)
    | .expr e => .variant "Expr" (encode e)
    | .comment text => .variant "Comment" (.object [("text", encode text)])

instance : Decode (Kind NodeId) where
  decode? json := do
    match ← json.variant? with
    | ("Stmt", data) => Json.data? .stmt data
    | ("Expr", data) => Json.data? .expr data
    | ("Comment", data) =>
      Json.fields? ["text"] (fun r => do return .comment (← r.get? "text")) data
    | _ => none

instance : Encode Node where
  encode node :=
    .object [("kind", encode node.kind), ("parent", encode node.parent),
      ("span", encode node.span)]

instance : Decode Node where
  decode? json := do
    let record ← json.record? ["kind", "parent", "span"]
    return ⟨← record.get? "kind", ← record.get? "parent", ← record.get? "span"⟩

instance : Encode Tree where
  encode tree :=
    .object [("nodes", encode tree.nodes), ("vars", encode tree.vars),
      ("root", encode tree.root), ("context", encode tree.scope),
      ("revision", encode tree.revision)]

instance : Decode Tree where
  decode? json := do
    let record ← json.record? ["nodes", "vars", "root", "context", "revision"]
    return ⟨← record.get? "nodes", ← record.get? "vars", ← record.get? "root",
      ← record.get? "context", ← record.get? "revision"⟩

end LoopToStream
