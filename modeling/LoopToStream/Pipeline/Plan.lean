import LoopToStream.Failure
import LoopToStream.Loop.Candidate
import LoopToStream.Options

/-!
# Planning a pipeline

`Pipeline.of` plans what takes the place of a candidate. Each guard becomes a filter with the
guard's condition. What is done at the end depends on the action:

* an accumulation maps each element to the value that is added, unless that is the element
  itself, and collects. If the collection is a local variable that is declared right in front
  of the loop with a new, empty collection, the declaration takes the result as its initial
  value (`Fold`); otherwise the result is added to the collection;
* any other action is run on each element.

Comments that are in none of the parts that are kept are listed, so that they can be put in
front of the pipeline.
-/

namespace LoopToStream

namespace Pipeline

variable (analyzer : Analyzer) (options : Options) (tree : Tree)

/-! ### Functions -/

/-- The filter for a condition. -/
def filterOf (param : VarId) (cond : NodeId) : StageFunction := .lambda param (.expr cond)

/-- The mapping from an element to the value that is added; none if that is the element. -/
def mapperOf (param : VarId) (value : NodeId) : Lookup (Option StageFunction) := do
  if Forwarding.isParam tree param value then return none
  let reduced ←
    if options.preferMethodRefs then Forwarding.reduce? analyzer tree param value
    else pure none
  return some (reduced.getD (.lambda param (.expr value)))

/-- What a function literal does to run a statement. -/
def lambdaBodyOf (action : NodeId) : LambdaBody :=
  match tree.stmt? action with
  | some (.expr value) => .expr value
  | some (.block _) => .block action
  | _ => .wrapped action

/-- The function that runs a statement. -/
def actionFunction (param : VarId) (action : NodeId) : Lookup StageFunction := do
  let reduced ←
    if options.preferMethodRefs then Forwarding.reduceAction? analyzer tree param action
    else pure none
  return reduced.getD (.lambda param (lambdaBodyOf tree action))

/-! ### Collecting -/

/-- The collector for a collection that the creation at `initializer` makes. -/
def collectorFor (type : ClassType) (initializer : NodeId) : Collector :=
  if type.name = "ArrayList" then .list
  else if type.name = "HashSet" then .set
  else .custom initializer

/-- The declaration of `var` right in front of `loop` that the loop can be folded into, and the
collector that makes what its initial value makes: a creation without arguments. -/
def foldSite? (loop : NodeId) (var : VarId) : Lookup (Option (Collector × Fold)) := do
  let some previous ← tree.prevSibling? loop | return none
  match ← tree.kind previous with
  | .stmt (.declare declared (some init)) =>
    if declared ≠ var then return none
    match tree.expr? init with
    | some (.create ⟨type, [], _⟩) =>
      return some (collectorFor type init, ⟨previous, init⟩)
    | _ => return none
  | _ => return none

/-- How the values that a loop adds are gathered at the end. -/
def gathering (loop : NodeId) (accumulation : Accumulation) :
    Lookup (Terminal × Option Fold) := do
  let appended := (Terminal.addAll accumulation.qualifier, none)
  match accumulation.target with
  | .implicitReceiver => return appended
  | .variable var =>
    -- what is declared elsewhere may hold elements already
    if (← tree.var var).kind ≠ .localVariable then return appended
    match ← foldSite? tree loop var with
    | some (collector, fold) => return (.collect collector, some fold)
    | none => return appended

/-! ### The plan -/

/-- The mapping and the end of a pipeline, and the parts of the code that they keep. -/
structure Ending where
  mapper : Option StageFunction
  terminal : Terminal
  fold : Option Fold
  kept : List NodeId

/-- The end of the pipeline for a candidate. -/
def endingOf (candidate : Candidate) : Attempt Failure Ending := do
  match candidate.action with
  | .accumulate accumulation =>
    if !(tree.call? accumulation.call).any (·.args.length = 1) then
      refuse (.violation (.argumentCount (← tree.span accumulation.call)))
    let mapper ← mapperOf analyzer options tree candidate.param accumulation.value
    let (terminal, fold) ← gathering tree candidate.loop accumulation
    return ⟨mapper, terminal, fold, [accumulation.value]⟩
  | .perform stmt =>
    let function ← actionFunction analyzer options tree candidate.param stmt
    return ⟨none, .forEach function, none, if function.isMethodRef then [] else [stmt]⟩

/-- The comment at `id` is at or below none of the kept parts. -/
def isGivenUp (kept : List NodeId) (id : NodeId) : Lookup Bool :=
  return !(← kept.anyM fun part => tree.isAncestor part id)

/-- The plan for a candidate. -/
def of (candidate : Candidate) : Attempt Failure Pipeline := do
  let ending ← endingOf analyzer options tree candidate
  let comments ← tree.commentsIn candidate.body
  -- what is kept takes its comments along
  let kept := candidate.chain.conditions ++ ending.kept
  let givenUp ← (comments.filterM (isGivenUp tree kept) : Lookup _)
  return {
    loop := candidate.loop
    source := candidate.source
    param := candidate.param
    filters := candidate.chain.conditions.map (filterOf candidate.param)
    mapper := ending.mapper
    terminal := ending.terminal
    fold := ending.fold
    comments := givenUp
    action := candidate.chain.action }

end Pipeline

end LoopToStream
