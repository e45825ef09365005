import LoopToStream.Loop.Action
import LoopToStream.Pipeline.Forwarding

/-!
# Loops that can become pipelines

`Candidate.of` makes every check that a loop has to pass, in order, and gives what it has
found out on the way: where the elements come from, the guards, and the action. The first
check that does not pass is the reason for turning the loop down.

The last check spares loops that are written as simply as they can be: one call without any
guard that could as well be a method reference.
-/

namespace LoopToStream

/-- A loop that has passed every check. -/
structure Candidate where
  loop : NodeId
  /-- The collection that the loop runs over. -/
  source : NodeId
  /-- The variable that the elements are put in. -/
  param : VarId
  body : NodeId
  chain : GuardChain
  action : LoopAction
deriving DecidableEq, Repr

namespace Candidate

variable (analyzer : Analyzer) (tree : Tree)

/-- The sort of the loop. -/
def kind (candidate : Candidate) : ActionKind := candidate.action.kind

/-- The collection and the body of a loop over a collection in code that may have function
literals. -/
def partsOf (loop : NodeId) : Attempt Rejection (VarId × NodeId × NodeId) := do
  let some found := tree.forEach? loop | refuse .notForEach
  if tree.scope.languageLevel < Scope.defaultLevel then refuse .languageLevel
  match found.iterated, found.body with
  | some source, some body =>
    if ← analyzer.symbols.isCollection tree source then return (found.var, source, body)
    else refuse .notACollection
  | _, _ => refuse .incompleteLoop

/-- What the body does allows it to be a function literal. -/
def checkBody (body : NodeId) : Attempt Rejection Unit := do
  let summary ← (BodySummary.of analyzer tree body).mapReason Rejection.ofAnalysis
  (← summary.verdict tree).require

/-- A bare action that could be a method reference as it stands. -/
def isTrivial (param : VarId) (chain : GuardChain) (action : LoopAction) : Lookup Bool := do
  match action with
  | .accumulate _ => return false
  | .perform _ =>
    if chain.isBare then
      return (← Forwarding.reduceAction? analyzer tree param chain.action).isSome
    else return false

/-- The candidate that a loop is. -/
def of (loop : NodeId) : Attempt Rejection Candidate := do
  let (param, source, body) ← partsOf analyzer tree loop
  checkBody analyzer tree body
  -- the body may be a function literal; the rest is about what the pipeline looks like
  let chain := GuardChain.of tree body
  let action ← LoopAction.of analyzer tree chain
  if ← isTrivial analyzer tree param chain action then refuse .trivialBody
  return { loop, source, param, body, chain, action }

end Candidate

end LoopToStream
