import LoopToStream.Tree.Walk

/-!
# Questions about a tree

What the surroundings of a node are, seen through what does not matter: the statement in front
of it, the statement inside of a block that wraps nothing else, the expression inside of
parentheses, the place where a variable is declared, and the references, loops and comments of
a subtree.
-/

namespace LoopToStream

namespace Tree

variable (tree : Tree)

/-! ### Seeing through wrappers -/

/-- The statements of a list of ids; comments are none. -/
def statementsAmong (ids : List NodeId) : List NodeId :=
  ids.filter fun id => (tree.stmt? id).isSome

/-- The only statement of a block, if a block with just one statement stands at `id`. -/
def onlyStatement? (id : NodeId) : Option NodeId :=
  match (tree.stmt? id).bind Stmt.block? with
  | none => none
  | some stmts =>
    match tree.statementsAmong stmts with
    | [single] => some single
    | _ => none

/-- The expression in parentheses at `id`. -/
def parenthesised? (id : NodeId) : Option NodeId :=
  match tree.expr? id with
  | some (.paren inner) => some inner
  | _ => none

/-- Follows `inside` from `id` for as long as it leads on. -/
def innermostWithin (inside : NodeId → Option NodeId) : Nat → NodeId → NodeId
  | 0, id => id
  | fuel + 1, id =>
    match inside id with
    | some inner => innermostWithin inside fuel inner
    | none => id

/-- The statement inside of any number of blocks that hold one statement each. Comments do not
count as statements. -/
def unwrapSingleBlock (id : NodeId) : NodeId :=
  innermostWithin tree.onlyStatement? tree.pathBound id

/-- The expression inside of any number of parentheses. -/
def skipParens (id : NodeId) : NodeId :=
  innermostWithin tree.parenthesised? tree.pathBound id

/-- The variable that the expression at `id` stands for, seen through parentheses. -/
def variableAt? (id : NodeId) : Option VarId :=
  (tree.expr? (tree.skipParens id)).bind Expr.var?

/-! ### Neighbours -/

/-- A block links `id`. -/
def isInBlock (id : NodeId) : Lookup Bool :=
  return (← tree.parent id).any tree.isBlock

/-- The one in front of the first `id` of a list. -/
def before? (id : NodeId) : List NodeId → Option NodeId
  | previous :: next :: rest =>
    if previous = id then none
    else if next = id then some previous
    else before? id (next :: rest)
  | _ => none

/-- The statement or comment right in front of `id` in the block that links it. -/
def prevSibling? (id : NodeId) : Lookup (Option NodeId) := do
  let some up ← tree.parent id | return none
  return ((tree.stmt? up).bind Stmt.block?).bind (before? id)

/-- The loop over a collection whose body holds `id`. -/
def enclosingForEach? (id : NodeId) : Lookup (Option NodeId) :=
  tree.climb (fun _ up => if (tree.forEach? up).isSome then some up else none) id

/-! ### Declarations, loops and comments -/

/-- A layer of code that declares a variable: a local declaration, a loop over a collection, a
`try` by one of its handlers, or a function literal. -/
def declares (var : VarId) : Kind NodeId → Bool
  | .stmt (.declare v _) => v = var
  | .stmt (.forEach loop) => loop.var = var
  | .stmt (.tryCatch _ handlers) => handlers.any fun handler => handler.var = var
  | .expr (.lambda params ..) => params.contains var
  | _ => false

/-- The first node in the tree that declares a variable. Fields and parameters of the method
have none. -/
def declarationOf? (var : VarId) : Lookup (Option NodeId) :=
  return (← tree.descendants tree.root).find? fun id => (tree.kind? id).any (declares var)

/-- The loops over collections in the tree, in preorder. -/
def forEachLoops : Lookup (List NodeId) :=
  return (← tree.descendants tree.root).filter fun id => (tree.forEach? id).isSome

/-- The names and fields at or below `id` that stand for a variable. -/
def referencesIn (var : VarId) (id : NodeId) : Lookup (List NodeId) :=
  return (← tree.descendants id).filter fun node => (tree.expr? node).bind Expr.var? = some var

/-- The comments at or below `id`, in source order. -/
def commentsIn (id : NodeId) : Lookup (List NodeId) :=
  return (← tree.descendants id).filter fun node => (tree.comment? node).isSome

end Tree

end LoopToStream
