import LoopToStream.Text
import LoopToStream.Tree.Walk

/-!
# The source of a tree

Code is printed bottom-up. A subtree is read as a `Fragment`, the layout commands of its text
together with its binding strength where it is an expression, and `Kind.layout` joins the
fragments of the parts of a layer. A part that binds looser than its place demands is put in
parentheses (`Fragment.operand`), so that code put together from pieces prints with the
parentheses that it needs; parentheses that are part of the tree are printed as well.

Blocks are the only thing that spreads over lines. Missing parts of an `if` or of a loop are
printed as a comment.
-/

namespace LoopToStream

open Layout (Command)

/-- Printed code. -/
structure Fragment where
  /-- The binding strength of an expression; missing for statements and comments. -/
  binding : Option Nat
  code : List Command

namespace Fragment

/-- The fragment at a place that demands a binding strength of at least `least`. -/
def operand (least : Nat) (part : Fragment) : List Command :=
  if part.binding.any (· < least) then .write "(" :: (part.code ++ [.write ")"])
  else part.code

/-- A part that may be missing. -/
def orMissing : Option Fragment → List Command
  | some part => part.code
  | none => [.write "/*missing*/"]

/-- Arguments in parentheses, with commas between them. -/
def arguments (args : List Fragment) : List Command :=
  .write "(" :: (List.intercalate [.write ", "] (args.map Fragment.code) ++ [.write ")"])

end Fragment

/-! ### Literals and jumps -/

/-- The spelling of a literal. -/
def Literal.text : Literal → String
  | .int value => toString value.toInt
  | .bool value => if value then "true" else "false"
  | .char c => Escape.quoted Escape.codeChar (String.singleton c)
  | .str value => Escape.quoted Escape.codeString value
  | .null => "null"

/-- A jump with the label that it goes to. -/
def jumpText (keyword : String) (label : Option String) : String :=
  keyword ++ (label.map (" " ++ ·)).getD "" ++ ";"

/-! ### Layers -/

section Layers

variable (var : VarId → Lookup Variable)

/-- A statement over its printed parts. -/
def Stmt.layout : Stmt Fragment → Lookup (List Command)
  | .block [] => return [.write "\x7b\x7d"]
  | .block stmts =>
    return .write "\x7b" ::
      (Layout.nested (stmts.flatMap fun stmt => .newline :: stmt.code) ++
        [.newline, .write "\x7d"])
  | .expr value => return value.code ++ [.write ";"]
  | .declare v init => do
    let v ← var v
    let declaration := (if v.isFinal then "final " else "") ++ v.type.text ++ " " ++ v.name
    match init with
    | some value => return .write (declaration ++ " = ") :: (value.code ++ [.write ";"])
    | none => return [.write (declaration ++ ";")]
  | .branch cond thenBranch elseBranch =>
    return .write "if (" :: (Fragment.orMissing cond ++ .write ") " ::
      (Fragment.orMissing thenBranch ++
        match elseBranch with
        | some other => .write " else " :: other.code
        | none => []))
  | .forEach loop => do
    let v ← var loop.var
    return .write ("for (" ++ v.type.text ++ " " ++ v.name ++ " : ") ::
      (Fragment.orMissing loop.iterated ++ .write ") " :: Fragment.orMissing loop.body)
  | .whileLoop cond body =>
    return .write "while (" :: (cond.code ++ .write ") " :: body.code)
  | .labeled label body => return .write (label ++ ": ") :: body.code
  | .breakTo label => return [.write (jumpText "break" label)]
  | .continueTo label => return [.write (jumpText "continue" label)]
  | .giveBack (some value) => return .write "return " :: (value.code ++ [.write ";"])
  | .giveBack none => return [.write "return;"]
  | .throwValue value => return .write "throw " :: (value.code ++ [.write ";"])
  | .tryCatch body handlers => do
    let handlers ← handlers.mapM fun handler => do
      let v ← var handler.var
      let types := " | ".intercalate (handler.types.map ClassType.text)
      return Command.write (" catch (" ++ types ++ " " ++ v.name ++ ") ") :: handler.body.code
    return .write "try " :: (body.code ++ handlers.flatten)
  | .empty => return [.write ";"]

/-- The parameters of a function literal; only a single one without its type goes without
parentheses. -/
def parameterText (explicitTypes : Bool) : List Variable → String
  | [single] =>
    if explicitTypes then "(" ++ single.type.text ++ " " ++ single.name ++ ")" else single.name
  | params =>
    let texts := params.map fun v =>
      if explicitTypes then v.type.text ++ " " ++ v.name else v.name
    "(" ++ ", ".intercalate texts ++ ")"

/-- An expression over its printed parts. -/
def Expr.layout : Expr Fragment → Lookup (List Command)
  | .literal value => return [.write value.text]
  | .name n _ => return [.write n]
  | .typeName type => return [.write type.text]
  | .thisRef => return [.write "this"]
  | .superRef => return [.write "super"]
  | .field receiver n _ => return receiver.operand 15 ++ [.write ("." ++ n)]
  | .call c =>
    let qualifier := match c.receiver with
      | some receiver => receiver.operand 15 ++ [.write "."]
      | none => []
    return qualifier ++ .write c.method :: Fragment.arguments c.args
  | .create c => return .write ("new " ++ c.type.text) :: Fragment.arguments c.args
  | .binary op lhs rhs =>
    -- operators of one strength group to the left
    return lhs.operand op.precedence ++ .write (" " ++ op.text ++ " ") ::
      rhs.operand (op.precedence + 1)
  | .unary op operand =>
    if op.followsOperand then return operand.operand op.precedence ++ [.write op.text]
    else return .write op.text :: operand.operand op.precedence
  | .assign op target value =>
    return target.operand 2 ++
      .write (" " ++ (op.map BinaryOp.text).getD "" ++ "= ") :: value.operand 1
  | .paren inner => return .write "(" :: (inner.code ++ [.write ")"])
  | .lambda params explicitTypes body => do
    let params ← params.mapM var
    return .write (parameterText explicitTypes params ++ " -> ") :: body.code
  | .methodRef qualifier method =>
    return qualifier.operand 15 ++ [.write ("::" ++ method)]

/-- A layer over its printed parts. -/
def Kind.layout : Kind Fragment → Lookup (List Command)
  | .stmt s => s.layout var
  | .expr e => e.layout var
  | .comment text => return [.write text]

end Layers

/-! ### Trees -/

namespace Tree

variable (tree : Tree)

/-- The printed code at `id`. With `showIds` every node is followed by its id in a comment. -/
def fragment (showIds : Bool) (id : NodeId) : Lookup Fragment :=
  tree.bottomUp (fun id kind => do
    let code ← kind.layout tree.var
    let mark := if showIds then [.write (" /*" ++ id.text ++ "*/")] else []
    return ⟨kind.expr?.map Expr.precedence, code ++ mark⟩) id

/-- The source of what stands at `id`. -/
def source (options : Layout.Options) (showIds : Bool) (id : NodeId) : Lookup String :=
  return Layout.render options (← tree.fragment showIds id).code

/-- The source of what stands at `id`, on one line. -/
def text (id : NodeId) : Lookup String := tree.source .compact false id

end Tree

end LoopToStream
