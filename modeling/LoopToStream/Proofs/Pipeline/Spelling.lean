import LoopToStream.Pipeline.Install
import LoopToStream.Proofs.Pipeline.Plan

/-!
# Pipelines as text

What a pipeline is written as, put together from the texts that its parts have in the tree before
anything is changed. Nothing here makes nodes or lays out code: these are concatenations of strings,
to be compared with what the changed tree prints.
-/

namespace LoopToStream

namespace Spelling

variable (tree : Tree) (style : CollectorStyle)

/-- A call of a method on what stands in front of it, with the text of its arguments. -/
def call (receiver method argument : String) : String :=
  receiver ++ "." ++ method ++ "(" ++ argument ++ ")"

/-! ### Functions -/

/-- What stands in front of `::`. -/
def qualifier : Qualifier → Lookup String
  | .type type => return type.text
  | .thisRef => return "this"
  | .superRef => return "super"
  | .expr id => tree.text id

/-- What stands behind the arrow; a block is made for a statement. -/
def body : LambdaBody → Lookup String
  | .expr id | .block id => tree.text id
  | .wrapped id => return "\x7b " ++ (← tree.text id) ++ " \x7d"

/-- A method reference, or a function literal without the type of its parameter. -/
def function : StageFunction → Lookup String
  | .methodRef qualifier method =>
    return (← Spelling.qualifier tree qualifier) ++ "::" ++ method
  | .lambda param body =>
    return (← tree.var param).name ++ " -> " ++ (← Spelling.body tree body)

/-- A function literal with the type of its parameter, and always with a block. -/
def typedFunction (param : VarId) (action : NodeId) : Lookup String := do
  let v ← tree.var param
  let block ← Spelling.body tree (if tree.isBlock action then .block action else .wrapped action)
  return "(" ++ v.type.text ++ " " ++ v.name ++ ") -> " ++ block

/-! ### Stages -/

/-- The collection that the elements come from, in parentheses unless it is a call, a creation, a
name, a field, `this`, `super` or in parentheses already. -/
def source (id : NodeId) : Lookup String := do
  let text ← tree.text id
  return if (tree.expr? id).any Pipeline.isReceiver then text else "(" ++ text ++ ")"

/-- The source with a filter for each guard, outermost first, and with the mapping. A collection
is only made a stream where one is needed: for an accumulation or for a filter. -/
def chain (candidate : Candidate) (mapper : Option StageFunction) : Lookup String := do
  let collection ← source tree candidate.source
  let streams := candidate.kind = .accumulation ∨ candidate.chain.conditions ≠ []
  let param ← tree.var candidate.param
  let filtered ← candidate.chain.conditions.foldlM
    (fun text cond => return call text "filter" (param.name ++ " -> " ++ (← tree.text cond)))
    (if streams then call collection "stream" "" else collection)
  match mapper with
  | some mapper => return call filtered "map" (← function tree mapper)
  | none => return filtered

/-- A call of the method that makes a collector. -/
def factory (method argument : String) : String :=
  match style with
  | .qualified => call "Collectors" method argument
  | .staticImport => method ++ "(" ++ argument ++ ")"

/-- The collector. -/
def collector : Collector → Lookup String
  | .list => return factory style "toList" ""
  | .set => return factory style "toSet" ""
  | .custom supplier => return factory style "toCollection" ("() -> " ++ (← tree.text supplier))

/-! ### Statements -/

/-- A call on a receiver, or on the implicit one. -/
def callOn (method argument : String) : Option NodeId → Lookup String
  | some receiver => return call (← tree.text receiver) method argument
  | none => return method ++ "(" ++ argument ++ ")"

/-- The declaration at `id` with `value` as its initial value. -/
def declaration (id : NodeId) (value : String) : Lookup String := do
  match tree.stmt? id with
  | some (.declare var _) =>
    let v ← tree.var var
    return (if v.isFinal then "final " else "") ++ v.type.text ++ " " ++ v.name ++ " = " ++
      value ++ ";"
  | _ => return ""

/-- **The statement** that a pipeline becomes. With `typed`, the function that is run on each
element is written with the type of its parameter. -/
def statement (candidate : Candidate) (ending : Pipeline.Ending) (typed : Bool) :
    Lookup String := do
  let chain ← chain tree candidate ending.mapper
  match ending.terminal, ending.fold with
  | .forEach function, _ =>
    let function ←
      if typed then typedFunction tree candidate.param candidate.chain.action
      else Spelling.function tree function
    return call chain "forEach" function ++ ";"
  | .collect collector, some fold =>
    declaration tree fold.declaration
      (call chain "collect" (← Spelling.collector tree style collector))
  | .collect collector, none =>
    return call chain "collect" (← Spelling.collector tree style collector)
  | .addAll receiver, _ =>
    let collected := call chain "collect" (← Spelling.collector tree style .list)
    return (← callOn tree "addAll" collected receiver) ++ ";"

/-- What takes the place of the loop: the statement alone, if there is room in front of it for the
comments that are saved or there are none, and otherwise a block for them and the statement. -/
def replacement (inBlock : Bool) (comments : List NodeId) (statement : String) : Lookup String :=
  if inBlock ∨ comments = [] then return statement
  else return "\x7b " ++ " ".intercalate ((← comments.mapM tree.text) ++ [statement]) ++ " \x7d"

/-- **All that is written** where the loop was. What is folded into a declaration is written there.
-/
def whole (candidate : Candidate) (ending : Pipeline.Ending) (typed : Bool) : Lookup String := do
  let statement ← statement tree style candidate ending typed
  if ending.fold.isSome then return statement
  replacement tree (← tree.isInBlock candidate.loop)
    (Pipeline.savedComments tree candidate ending) statement

end Spelling

end LoopToStream
