import LoopToStream.Code.Basic

/-!
# One layer of code

`Kind ι` is a statement, an expression or a comment whose parts are of type `ι`. In a tree the
parts are ids (`Kind NodeId`); when a subtree is read bottom-up they are what its parts were
read as.

Everything that follows links goes through three functions, which agree on what the parts of a
layer are and in which order they stand:

* `Kind.children` lists the parts, left to right;
* `Kind.map` replaces each part and keeps all else, so that
  `(kind.map f).children = kind.children.map f` (`Kind.children_map`);
* `Kind.mapM` does the same when finding the replacement may fail.

Parts may be missing where code is still being written: an `if` without condition or branch, a
loop without collection or body.
-/

namespace LoopToStream

/-! ### Statements -/

/-- A handler of a `try` statement; more than one type for a handler of several exceptions. -/
structure Catch (ι : Type) where
  var : VarId
  types : List ClassType
  body : ι
deriving Repr

/-- A loop over the elements of a collection. -/
structure ForEach (ι : Type) where
  var : VarId
  iterated : Option ι
  body : Option ι
deriving Repr

/-- One statement over parts of type `ι`. -/
inductive Stmt (ι : Type) where
  /-- Statements and comments in source order. -/
  | block (stmts : List ι)
  | expr (value : ι)
  /-- The declaration of a local variable. -/
  | declare (var : VarId) (init : Option ι)
  | branch (cond thenBranch elseBranch : Option ι)
  | forEach (loop : ForEach ι)
  | whileLoop (cond body : ι)
  | labeled (label : String) (body : ι)
  | breakTo (label : Option String)
  | continueTo (label : Option String)
  | giveBack (value : Option ι)
  | throwValue (value : ι)
  | tryCatch (body : ι) (handlers : List (Catch ι))
  | empty
deriving Repr

namespace Stmt

variable {α β ι : Type}

/-- A loop of either sort. -/
def isLoop : Stmt ι → Bool
  | forEach _ | whileLoop .. => true
  | _ => false

/-- The statements of a block. -/
def block? : Stmt ι → Option (List ι)
  | block stmts => some stmts
  | _ => none

/-- A block, whatever it holds. -/
def isBlock : Stmt ι → Bool
  | block _ => true
  | _ => false

/-- The loop over a collection that a statement is. -/
def forEach? : Stmt ι → Option (ForEach ι)
  | forEach loop => some loop
  | _ => none

/-- The statements and expressions directly in a statement, left to right. -/
def children : Stmt ι → List ι
  | block stmts => stmts
  | expr value => [value]
  | declare _ init => init.toList
  | branch cond thenBranch elseBranch => cond.toList ++ thenBranch.toList ++ elseBranch.toList
  | forEach loop => loop.iterated.toList ++ loop.body.toList
  | whileLoop cond body => [cond, body]
  | labeled _ body => [body]
  | breakTo _ => []
  | continueTo _ => []
  | giveBack value => value.toList
  | throwValue value => [value]
  | tryCatch body handlers => body :: handlers.map Catch.body
  | empty => []

/-- The statement with `f` applied to each part. -/
def map (f : α → β) : Stmt α → Stmt β
  | block stmts => block (stmts.map f)
  | expr value => expr (f value)
  | declare var init => declare var (init.map f)
  | branch cond thenBranch elseBranch =>
    branch (cond.map f) (thenBranch.map f) (elseBranch.map f)
  | forEach ⟨var, iterated, body⟩ => forEach ⟨var, iterated.map f, body.map f⟩
  | whileLoop cond body => whileLoop (f cond) (f body)
  | labeled label body => labeled label (f body)
  | breakTo label => breakTo label
  | continueTo label => continueTo label
  | giveBack value => giveBack (value.map f)
  | throwValue value => throwValue (f value)
  | tryCatch body handlers =>
    tryCatch (f body) (handlers.map fun c => ⟨c.var, c.types, f c.body⟩)
  | empty => empty

/-- The statement with `f` run on each part, left to right. -/
def mapM {m : Type → Type} [Monad m] (f : α → m β) : Stmt α → m (Stmt β)
  | block stmts => return block (← stmts.mapM f)
  | expr value => return expr (← f value)
  | declare var init => return declare var (← init.mapM f)
  | branch cond thenBranch elseBranch =>
    return branch (← cond.mapM f) (← thenBranch.mapM f) (← elseBranch.mapM f)
  | forEach ⟨var, iterated, body⟩ => return forEach ⟨var, ← iterated.mapM f, ← body.mapM f⟩
  | whileLoop cond body => return whileLoop (← f cond) (← f body)
  | labeled label body => return labeled label (← f body)
  | breakTo label => return breakTo label
  | continueTo label => return continueTo label
  | giveBack value => return giveBack (← value.mapM f)
  | throwValue value => return throwValue (← f value)
  | tryCatch body handlers =>
    return tryCatch (← f body)
      (← handlers.mapM fun c => return ⟨c.var, c.types, ← f c.body⟩)
  | empty => return empty

end Stmt

/-! ### Expressions -/

/-- A method call. -/
structure Call (ι : Type) where
  /-- Missing for an unqualified call on the implicit receiver. -/
  receiver : Option ι
  method : String
  args : List ι
  /-- The method that is called, where it is known. -/
  target : Option MethodId
deriving Repr

/-- The creation of an object. -/
structure Creation (ι : Type) where
  type : ClassType
  args : List ι
  /-- The constructor that is called, where it is known. -/
  target : Option MethodId
deriving Repr

/-- One expression over parts of type `ι`. -/
inductive Expr (ι : Type) where
  | literal (value : Literal)
  /-- A simple name; the variable is missing where the name could not be resolved. -/
  | name (name : String) (var : Option VarId)
  /-- A class in front of a member, `Math` in `Math.abs(x)`. -/
  | typeName (type : ClassType)
  | thisRef
  | superRef
  | field (receiver : ι) (name : String) (var : Option VarId)
  | call (call : Call ι)
  | create (creation : Creation ι)
  | binary (op : BinaryOp) (lhs rhs : ι)
  | unary (op : UnaryOp) (operand : ι)
  /-- An assignment, compound (`+=`) when it has an operator. -/
  | assign (op : Option BinaryOp) (target value : ι)
  | paren (inner : ι)
  /-- A function literal; its body is an expression or a block. -/
  | lambda (params : List VarId) (explicitTypes : Bool) (body : ι)
  /-- A method named as a function; the method is `new` for a constructor. -/
  | methodRef (qualifier : ι) (method : String)
deriving Repr

namespace Expr

variable {α β ι : Type}

/-- The call that an expression is. -/
def call? : Expr ι → Option (Call ι)
  | call c => some c
  | _ => none

/-- The creation of an object that an expression is. -/
def create? : Expr ι → Option (Creation ι)
  | create c => some c
  | _ => none

/-- Calls and creations of objects. -/
def isCallLike : Expr ι → Bool
  | call _ | create _ => true
  | _ => false

/-- Expressions whose parts are evaluated later, if at all. -/
def isClosure : Expr ι → Bool
  | lambda .. | methodRef .. => true
  | _ => false

/-- The variable that an expression itself stands for: that of a name or of a field. -/
def var? : Expr ι → Option VarId
  | name _ var => var
  | field _ _ var => var
  | _ => none

/-- Binding strength; higher binds tighter. -/
def precedence : Expr ι → Nat
  | lambda .. => 0
  | assign .. => 1
  | binary op .. => op.precedence
  | unary op _ => op.precedence
  | literal _ | create _ | name .. | typeName _ | thisRef | superRef | field .. | call _
  | paren _ | methodRef .. => 15

/-- The expressions and statements directly in an expression, left to right. -/
def children : Expr ι → List ι
  | literal _ => []
  | name .. => []
  | typeName _ => []
  | thisRef => []
  | superRef => []
  | field receiver _ _ => [receiver]
  | call c => c.receiver.toList ++ c.args
  | create c => c.args
  | binary _ lhs rhs => [lhs, rhs]
  | unary _ operand => [operand]
  | assign _ target value => [target, value]
  | paren inner => [inner]
  | lambda _ _ body => [body]
  | methodRef qualifier _ => [qualifier]

/-- The expression with `f` applied to each part. -/
def map (f : α → β) : Expr α → Expr β
  | literal value => literal value
  | name n var => name n var
  | typeName type => typeName type
  | thisRef => thisRef
  | superRef => superRef
  | field receiver n var => field (f receiver) n var
  | call ⟨receiver, method, args, target⟩ => call ⟨receiver.map f, method, args.map f, target⟩
  | create ⟨type, args, target⟩ => create ⟨type, args.map f, target⟩
  | binary op lhs rhs => binary op (f lhs) (f rhs)
  | unary op operand => unary op (f operand)
  | assign op target value => assign op (f target) (f value)
  | paren inner => paren (f inner)
  | lambda params explicitTypes body => lambda params explicitTypes (f body)
  | methodRef qualifier method => methodRef (f qualifier) method

/-- The expression with `f` run on each part, left to right. -/
def mapM {m : Type → Type} [Monad m] (f : α → m β) : Expr α → m (Expr β)
  | literal value => return literal value
  | name n var => return name n var
  | typeName type => return typeName type
  | thisRef => return thisRef
  | superRef => return superRef
  | field receiver n var => return field (← f receiver) n var
  | call ⟨receiver, method, args, target⟩ =>
    return call ⟨← receiver.mapM f, method, ← args.mapM f, target⟩
  | create ⟨type, args, target⟩ => return create ⟨type, ← args.mapM f, target⟩
  | binary op lhs rhs => return binary op (← f lhs) (← f rhs)
  | unary op operand => return unary op (← f operand)
  | assign op target value => return assign op (← f target) (← f value)
  | paren inner => return paren (← f inner)
  | lambda params explicitTypes body => return lambda params explicitTypes (← f body)
  | methodRef qualifier method => return methodRef (← f qualifier) method

end Expr

/-! ### Either of them, or a comment -/

/-- What stands at a place of the code, over parts of type `ι`. -/
inductive Kind (ι : Type) where
  | stmt (stmt : Stmt ι)
  | expr (expr : Expr ι)
  /-- A comment with its delimiters. -/
  | comment (text : String)
deriving Repr

namespace Kind

variable {α β ι : Type}

/-- The statement that stands here. -/
def stmt? : Kind ι → Option (Stmt ι)
  | stmt s => some s
  | _ => none

/-- The expression that stands here. -/
def expr? : Kind ι → Option (Expr ι)
  | expr e => some e
  | _ => none

/-- The text of the comment that stands here. -/
def comment? : Kind ι → Option String
  | comment text => some text
  | _ => none

/-- The parts, left to right. -/
def children : Kind ι → List ι
  | stmt s => s.children
  | expr e => e.children
  | comment _ => []

/-- The same layer with `f` applied to each part. -/
def map (f : α → β) : Kind α → Kind β
  | stmt s => stmt (s.map f)
  | expr e => expr (e.map f)
  | comment text => comment text

/-- The same layer with `f` run on each part, left to right. -/
def mapM {m : Type → Type} [Monad m] (f : α → m β) : Kind α → m (Kind β)
  | stmt s => return stmt (← s.mapM f)
  | expr e => return expr (← e.mapM f)
  | comment text => return comment text

/-- Replacing the parts of a layer replaces them in the list of its parts, one by one and in
place. -/
theorem children_map (f : α → β) (kind : Kind α) :
    (kind.map f).children = kind.children.map f := by
  -- missing parts are missing on both sides
  have hopt : ∀ o : Option α, (o.map f).toList = o.toList.map f := by
    intro o; cases o <;> rfl
  cases kind with
  | stmt s => cases s <;> simp [map, Stmt.map, children, Stmt.children, hopt]
  | expr e => cases e <;> simp [map, Expr.map, children, Expr.children, hopt]
  | comment _ => rfl

end Kind

end LoopToStream
