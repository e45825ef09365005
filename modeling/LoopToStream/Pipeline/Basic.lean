import LoopToStream.Code.Basic

/-!
# Pipelines

A `Pipeline` is the plan for what takes the place of a loop: the collection that the elements
come from, a filter for each guard, perhaps a mapping, and what is done at the end.

The stages take functions of one element. A `StageFunction` says how one will be written: as a
method reference or as a function literal over a piece of the code that is there already. Plans
and functions refer to that code by ids and hold no code of their own; new code is only made when
the plan is carried out.
-/

namespace LoopToStream

/-! ### Functions of one element -/

/-- What stands in front of `::` in a method reference. -/
inductive Qualifier where
  /-- A class: of a static method, of the element, or the one to create objects of. -/
  | type (type : ClassType)
  | thisRef
  | superRef
  /-- A receiver that stays the same for all elements. -/
  | expr (id : NodeId)
deriving Repr

/-- What a function literal does with its parameter. -/
inductive LambdaBody where
  /-- It gives the value of an expression. -/
  | expr (id : NodeId)
  /-- It runs a block. -/
  | block (id : NodeId)
  /-- It runs a statement, for which a block has to be made. -/
  | wrapped (id : NodeId)
deriving DecidableEq, Repr

/-- A function of one element. -/
inductive StageFunction where
  | methodRef (qualifier : Qualifier) (method : String)
  | lambda (param : VarId) (body : LambdaBody)
deriving Repr

namespace StageFunction

/-- The function is written as a method reference. -/
def isMethodRef : StageFunction → Bool
  | methodRef .. => true
  | lambda .. => false

end StageFunction

/-! ### Plans -/

/-- What the elements are collected into. -/
inductive Collector where
  | list
  | set
  /-- A collection that an expression creates. -/
  | custom (supplier : NodeId)
deriving DecidableEq, Repr

namespace Collector

/-- How a collector is shown in messages about plans. -/
def text : Collector → String
  | list => "CollectToList"
  | set => "CollectToSet"
  | custom supplier =>
    "CollectToCustom \x7b supplier: NodeId(" ++ toString supplier.index ++ ") \x7d"

end Collector

/-- The end of a pipeline. -/
inductive Terminal where
  /-- A function is run on each element. -/
  | forEach (function : StageFunction)
  /-- The elements make up a new collection. -/
  | collect (collector : Collector)
  /-- The elements are added to a collection that exists; without a receiver it is the object
  that the code belongs to. -/
  | addAll (receiver : Option NodeId)
deriving Repr

/-- The elements are gathered at the end. -/
def Terminal.isCollecting : Terminal → Bool
  | .forEach _ => false
  | .collect _ | .addAll _ => true

/-- A local declaration whose initial value the pipeline becomes. -/
structure Fold where
  declaration : NodeId
  initializer : NodeId
deriving DecidableEq, Repr

/-- The plan for what takes the place of a loop. -/
structure Pipeline where
  loop : NodeId
  /-- The collection that the elements come from. -/
  source : NodeId
  param : VarId
  /-- A predicate for each guard, outermost first. -/
  filters : List StageFunction
  mapper : Option StageFunction
  terminal : Terminal
  fold : Option Fold
  /-- The comments in the parts of the loop that are given up, in source order. -/
  comments : List NodeId
  /-- The action of the loop, for writing the last function with a block. -/
  action : NodeId
deriving Repr

/-- Running a function on each element of a collection needs no stream. -/
def Pipeline.needsStream (plan : Pipeline) : Bool :=
  plan.terminal.isCollecting || !plan.filters.isEmpty || plan.mapper.isSome

end LoopToStream
