import LoopToStream.Loop.Summary
import LoopToStream.Pipeline.Basic

/-!
# Forwarding calls as method references

A function literal that only hands its parameter on to a known method can be written as a
reference to the method. `Forwarding.reduce?` recognises

* `foo(x)`, as `Owner::foo` if the method is static and as `this::foo` where there is a `this`;
* `q.foo(x)`, as `q::foo`, for a class `q` if the method is static, and otherwise for `this`,
  `super`, and a variable or a field of `this` that keeps its value;
* `x.foo()`, as a reference through the class of `x`;
* `new T(x)`, as `T::new`.

A receiver is evaluated once for the reference and once per element for the literal, which is
why it has to keep its value. If a flow query about that is given up, the answer is no.
-/

namespace LoopToStream

namespace Forwarding

variable (analyzer : Analyzer) (tree : Tree)

/-- The expression of an expression statement, which is the usual form of an action. -/
def actionExpression? (action : NodeId) : Option NodeId :=
  match tree.stmt? action with
  | some (.expr value) => some value
  | _ => none

/-- The expression at `id` is the name of the parameter, perhaps in parentheses. -/
def isParam (param : VarId) (id : NodeId) : Bool :=
  match tree.expr? (tree.skipParens id) with
  | some (.name _ var) => var = some param
  | _ => false

/-- A variable other than the parameter that keeps its value around `place`. -/
def keepsValue (param : VarId) (place : NodeId) (var : VarId) : Lookup Bool := do
  if var = param then return false
  match ← (analyzer.flow.isEffectivelyFinal tree var place).settle with
  | .ok final => return final
  | .error _ => return false

/-- What to write in front of `::` for `receiver.foo(x)`. -/
def boundQualifier? (param : VarId) (isStatic : Bool) (receiver : NodeId) :
    Lookup (Option Qualifier) := do
  match tree.expr? receiver with
  | some (.typeName type) => return if isStatic then some (.type type) else none
  | some .thisRef => return if isStatic then none else some .thisRef
  | some .superRef => return if isStatic then none else some .superRef
  | some (.name _ (some var)) =>
    if isStatic then return none
    return if ← keepsValue analyzer tree param receiver var then some (.expr receiver) else none
  | some (.field owner _ (some var)) =>
    let onThis := match tree.expr? owner with
      | some .thisRef => true
      | _ => false
    if isStatic || !onThis then return none
    return if ← keepsValue analyzer tree param receiver var then some (.expr receiver) else none
  | _ => return none

/-- What to write in front of `::` for a call of a known method. -/
def callQualifier? (param : VarId) (signature : Signature) (c : Call NodeId) :
    Lookup (Option Qualifier) := do
  match c.args, c.receiver with
  | [arg], none =>
    if !isParam tree param arg then return none
    else if signature.isStatic then return some (.type (.simple signature.owner))
    else if tree.scope.isStatic then return none
    else return some .thisRef
  | [arg], some receiver =>
    if !isParam tree param arg then return none
    boundQualifier? analyzer tree param signature.isStatic receiver
  | [], some receiver =>
    if !isParam tree param receiver || signature.isStatic then return none
    return some (.type (← tree.var param).type.raw)
  | _, _ => return none

/-- The method reference that does the same as a function literal of `param` with the
expression at `id`. -/
def reduce? (param : VarId) (id : NodeId) : Lookup (Option StageFunction) := do
  let id := tree.skipParens id
  let some signature := analyzer.symbols.resolve? tree id | return none
  match tree.expr? id with
  | some (.call c) =>
    return (← callQualifier? analyzer tree param signature c).map fun qualifier =>
      .methodRef qualifier c.method
  | some (.create ⟨type, [arg], _⟩) =>
    return if isParam tree param arg then some (.methodRef (.type type.raw) "new") else none
  | _ => return none

/-- The method reference that does the same as a function literal of `param` that runs the
statement at `action`. -/
def reduceAction? (param : VarId) (action : NodeId) : Lookup (Option StageFunction) :=
  match actionExpression? tree action with
  | some id => reduce? analyzer tree param id
  | none => return none

end Forwarding

end LoopToStream
