import LoopToStream.Pipeline.Plan

/-!
# Putting a pipeline in the place of a loop

`Pipeline.install` carries out a plan. It stages the new code in an edit, node by node from
the source of the elements outwards, has the new code take the place of the loop, and commits.
The parts of the loop that the plan keeps are linked from the new code as they are.

* A pipeline that runs a function on each element, or adds to a collection, becomes a statement
  in the place of the loop. The comments to be kept are put in front of it; where the loop is
  not in a block, a block is made for them.
* A pipeline that is folded into a declaration becomes its initial value. The comments are put
  in front of the declaration, and the loop is removed.

A function literal without parameter types has no type where `forEach` accepts several shapes
of literals. The tree is then changed a second time, to write the literal with the type of its
parameter and with a block.

The tree is the state of a `TreeChange`. A failure leaves the tree as the changes up to then
have left it.
-/

namespace LoopToStream

/-! ### Changes of a tree that may fail -/

/-- A change of a tree, which may fail with the tree as it is then. -/
abbrev TreeChange : Type → Type := EStateM (Refusal Failure) Tree

namespace TreeChange

variable {α : Type}

/-- Something found out about the tree without changing it. -/
def ofAttempt : Attempt Failure α → TreeChange α
  | .ok a => pure a
  | .error refusal => throw refusal

instance : MonadLift (Attempt Failure) TreeChange := ⟨ofAttempt⟩

/-- The tree with an edit carried out. -/
def commit (edit : Edit) : TreeChange Unit := do
  set (← ofAttempt ((← get).commit edit |>.mapReason Failure.ofCommit))

end TreeChange

/-- What putting a pipeline in the place of a loop has done. -/
structure Outcome where
  /-- The statement that holds the pipeline now. -/
  replacement : NodeId
  /-- The pipeline has become the initial value of a declaration. -/
  folded : Bool
  /-- The last function is written with the type of its parameter. -/
  explicitLambda : Bool
  /-- The revision of the tree afterwards. -/
  revision : UInt64
deriving DecidableEq, Repr

namespace Pipeline

/-! ### Staging code -/

section Staging

/-- New code for an edit, which may turn out to be impossible. -/
abbrev Staging : Type → Type := StateT Edit (Attempt Failure)

variable (options : Options) (tree : Tree) (place : Span)

/-- A new node. -/
def stage (kind : Kind NodeId) : Staging NodeId := fun edit => return edit.add kind place

/-- The code cannot be staged. -/
def violate {α : Type} (violation : Violation) : Staging α := fun _ =>
  refuse (.violation violation)

/-- A new operation. -/
def stageOp (op : EditOp) : Staging Unit := fun edit => return ((), edit.addOp op)

/-- A new expression. -/
def stageExpr (e : Expr NodeId) : Staging NodeId := stage place (.expr e)

/-- A new statement. -/
def stageStmt (s : Stmt NodeId) : Staging NodeId := stage place (.stmt s)

/-- A new call. -/
def stageCall (receiver : Option NodeId) (method : String) (args : List NodeId) :
    Staging NodeId :=
  stageExpr place (.call ⟨receiver, method, args, none⟩)

/-- A call of the method that makes a collector. -/
def stageCollector (factory : String) (args : List NodeId) : Staging NodeId := do
  let receiver ← match options.collectorStyle with
    | .qualified => some <$> stageExpr place (.typeName (.simple "Collectors"))
    | .staticImport => pure none
  stageCall place receiver factory args

/-- An expression that a method can be called on without parentheses. -/
def isReceiver : Expr NodeId → Bool
  | .call _ | .create _ | .name .. | .field .. | .thisRef | .superRef | .paren _ => true
  | _ => false

/-- The source of the elements, in parentheses where a call on it needs them. -/
def stageSource (source : NodeId) : Staging NodeId :=
  if (tree.expr? source).any isReceiver then pure source
  else stageExpr place (.paren source)

/-- What stands in front of `::`. -/
def stageQualifier : Qualifier → Staging NodeId
  | .type type => stageExpr place (.typeName type)
  | .thisRef => stageExpr place .thisRef
  | .superRef => stageExpr place .superRef
  | .expr id => pure id

/-- The body of a function literal. -/
def stageBody : LambdaBody → Staging NodeId
  | .expr id => pure id
  | .block id => pure id
  | .wrapped id => stageStmt place (.block [id])

/-- A function. -/
def stageFunction : StageFunction → Staging NodeId
  | .methodRef qualifier method => do
    stageExpr place (.methodRef (← stageQualifier place qualifier) method)
  | .lambda param body => do
    stageExpr place (.lambda [param] false (← stageBody place body))

/-- A call of a stage's method on what comes before it. -/
def stageStep (method : String) (chain : NodeId) (function : StageFunction) :
    Staging NodeId := do
  let function ← stageFunction place function
  stageCall place (some chain) method [function]

/-- The source with the filters and the mapping of a plan. -/
def stageChain (plan : Pipeline) : Staging NodeId := do
  let source ← stageSource tree place plan.source
  -- a collection has a `forEach` of its own
  let stream ← if plan.needsStream then stageCall place (some source) "stream" [] else pure source
  let filtered ← plan.filters.foldlM (stageStep place "filter") stream
  match plan.mapper with
  | some mapper => stageStep place "map" filtered mapper
  | none => return filtered

/-- The elements collected by the collector that `factory` makes. -/
def stageCollected (chain : NodeId) (factory : String) (args : List NodeId) :
    Staging NodeId := do
  let collector ← stageCollector options place factory args
  stageCall place (some chain) "collect" [collector]

/-- The elements collected into a new collection. -/
def stageCollection (chain : NodeId) : Collector → Staging NodeId
  | .list => stageCollected options place chain "toList" []
  | .set => stageCollected options place chain "toSet" []
  | .custom supplier => do
    let supplier ← stageExpr place (.lambda [] false supplier)
    stageCollected options place chain "toCollection" [supplier]

/-! ### Taking the place of the loop -/

/-- Puts `stmt` in the place of the loop, behind the comments that are kept, and tells what
stands there then: the statement, or a block for it and the comments. -/
def stageReplacement (plan : Pipeline) (stmt : NodeId) : Staging NodeId := do
  let inBlock ← (tree.isInBlock plan.loop : Attempt Failure Bool)
  if inBlock || plan.comments.isEmpty then
    plan.comments.forM fun comment => stageOp (.insertBefore plan.loop comment)
    stageOp (.replace plan.loop stmt)
    return stmt
  -- the loop is the branch of an `if`, say: there is room for one statement only
  else
    let block ← stageStmt place (.block (plan.comments ++ [stmt]))
    stageOp (.replace plan.loop block)
    return block

/-- What the staged code for a plan consists of. -/
structure Staged where
  /-- The statement that will hold the pipeline. -/
  replacement : NodeId
  folded : Bool
  /-- The call that runs a function on each element. -/
  terminalCall : Option NodeId

/-- All that a plan asks for. -/
def stagePlan (plan : Pipeline) : Staging Staged := do
  let chain ← stageChain tree place plan
  -- a plan is made up by whoever asks: its end and its declaration need not fit together
  match plan.terminal, plan.fold with
  | .forEach function, none =>
    let call ← stageStep place "forEach" chain function
    let stmt ← stageStmt place (.expr call)
    return ⟨← stageReplacement tree place plan stmt, false, some call⟩
  | .addAll receiver, none =>
    let collected ← stageCollected options place chain "toList" []
    let call ← stageCall place receiver "addAll" [collected]
    let stmt ← stageStmt place (.expr call)
    return ⟨← stageReplacement tree place plan stmt, false, none⟩
  | .collect collector, some fold =>
    let collected ← stageCollection options place chain collector
    plan.comments.forM fun comment => stageOp (.insertBefore fold.declaration comment)
    stageOp (.replace fold.initializer collected)
    stageOp (.remove plan.loop)
    return ⟨fold.declaration, true, none⟩
  | _, some _ => violate (.notCollecting place)
  | .collect collector, none => violate (.needsDeclaration collector place)

end Staging

/-! ### Typed parameters -/

/-- The edit that writes the function at `function` with the type of its parameter and with a
block. -/
def explicitly (tree : Tree) (plan : Pipeline) (function : NodeId) :
    Attempt Failure Edit := do
  let place ← tree.span function
  let staged : Staging Unit := do
    let body ←
      if tree.isBlock plan.action then pure plan.action
      else stageStmt place (.block [plan.action])
    let lambda ← stageExpr place (.lambda [plan.param] true body)
    stageOp (.replace function lambda)
  return (← staged.run (Edit.start tree)).2

/-- Writes the function that the call runs on each element with the type of its parameter,
where it has to be, and tells whether it had to. -/
def disambiguate (symbols : Symbols) (plan : Pipeline) (call : NodeId) : TreeChange Bool := do
  let tree ← get
  if symbols.acceptsBareLambda tree call then return false
  match (tree.call? call).bind (·.args.head?) with
  | none => TreeChange.ofAttempt do refuse (.violation (.lostArgument (← tree.span call)))
  | some function =>
    -- a function that is no literal and no reference has a type of its own
    if !tree.isClosure function then return false
    TreeChange.commit (← explicitly tree plan function)
    return true

/-! ### The whole change -/

/-- Puts the pipeline of a plan in the place of its loop. -/
def install (symbols : Symbols) (options : Options) (plan : Pipeline) : TreeChange Outcome := do
  let tree ← get
  if (tree.forEach? plan.loop).isNone then
    TreeChange.ofAttempt do refuse (.violation (.notForEach (← tree.span plan.loop)))
  let place ← TreeChange.ofAttempt (tree.span plan.loop : Lookup Span)
  let (staged, edit) ← (stagePlan options tree place plan).run (Edit.start tree)
  TreeChange.commit edit
  -- from here on the tree is the one with the pipeline in it
  let explicitLambda ← match staged.terminalCall with
    | some call => disambiguate symbols plan call
    | none => pure false
  return ⟨staged.replacement, staged.folded, explicitLambda, (← get).revision⟩

end Pipeline

end LoopToStream
