import LoopToStream.Loop.Summary

/-!
# What a loop does with each element

The body of a loop is often a single action inside of conditions: an `if` without `else` whose
branch is such an `if` again, and so on, each perhaps in a block of its own. `GuardChain.of`
takes the conditions off, outermost first, and leaves the action, which is neither a block
with a single statement nor another guard.

The action either adds a value to a collection, the same collection each time, or is something
else. `Accumulation.of` finds out which, and says what speaks against an accumulation:

* the action is not a call of a method `add` of one parameter;
* the collection cannot be named from outside of the loop, is not known to be one, or is
  declared by the loop itself;
* a guard may notice what has been added so far (`observes`);
* the value comes from a call that a mapping function cannot make as it stands: an unknown or
  generic method, or one that throws a checked exception.
-/

namespace LoopToStream

/-! ### Guards around an action -/

/-- An action with the conditions under which it is run. -/
structure GuardChain where
  /-- The `if` statements, outermost first. -/
  guards : List NodeId
  /-- Their conditions, in the same order. -/
  conditions : List NodeId
  /-- The innermost statement. -/
  action : NodeId
deriving DecidableEq, Repr

namespace GuardChain

variable (tree : Tree)

/-- No condition at all. -/
def bare (action : NodeId) : GuardChain := ⟨[], [], action⟩

/-- The chain with one more guard around it. -/
def guarded (guard cond : NodeId) (inner : GuardChain) : GuardChain :=
  ⟨guard :: inner.guards, cond :: inner.conditions, inner.action⟩

/-- The condition and the branch of a complete `if` without `else`. -/
def guard? (id : NodeId) : Option (NodeId × NodeId) :=
  match tree.stmt? id with
  | some (.branch (some cond) (some thenBranch) none) => some (cond, thenBranch)
  | _ => none

/-- The chain that starts at `id`, with so many guards at most. -/
def within : Nat → NodeId → GuardChain
  | 0, id => bare id
  | fuel + 1, id =>
    match guard? tree id with
    | some (cond, thenBranch) => guarded id cond (within fuel (tree.unwrapSingleBlock thenBranch))
    | none => bare id

/-- The guards of `body` and the action inside of them. -/
def of (body : NodeId) : GuardChain := within tree tree.pathBound (tree.unwrapSingleBlock body)

/-- The action is run in any case. -/
def isBare (chain : GuardChain) : Bool := chain.guards.isEmpty

end GuardChain

/-! ### Accumulations -/

/-- The collection that values are added to. -/
inductive Target where
  | variable (var : VarId)
  /-- The object that the code belongs to. -/
  | implicitReceiver
deriving DecidableEq, Repr

/-- An action that adds a value to a collection. -/
structure Accumulation where
  /-- The call that adds. -/
  call : NodeId
  target : Target
  /-- What the call is made on; missing for the implicit receiver. -/
  qualifier : Option NodeId
  value : NodeId
deriving DecidableEq, Repr

/-- What is done with each element. -/
inductive LoopAction where
  | accumulate (accumulation : Accumulation)
  | perform (stmt : NodeId)
deriving DecidableEq, Repr

/-- The two sorts of loops that can be converted. -/
inductive ActionKind where
  | accumulation
  | generalAction
deriving DecidableEq, Repr

/-- The name of the sort. -/
def ActionKind.text : ActionKind → String
  | .accumulation => "Accumulation"
  | .generalAction => "GeneralAction"

/-- The sort of a loop with this action. -/
def LoopAction.kind : LoopAction → ActionKind
  | .accumulate _ => .accumulation
  | .perform _ => .generalAction

/-! ### Guards that observe the collection -/

namespace Target

variable (tree : Tree)

/-- A function literal stands at `id`. -/
def isLambda (id : NodeId) : Bool :=
  match tree.expr? id with
  | some (.lambda ..) => true
  | _ => false

/-- The expression at `id` is `this` or `super`. -/
def isReceiverRef (id : NodeId) : Bool :=
  match tree.expr? id with
  | some .thisRef => true
  | some .superRef => true
  | _ => false

/-- The expression at `id` may look into the object that the code belongs to: a call on it, or
`this` given to a call. -/
def readsReceiver (id : NodeId) : Lookup Bool := do
  match tree.expr? id with
  | some (.call c) => return c.receiver.all (isReceiverRef tree)
  | some .thisRef =>
    let some up ← tree.parent id | return false
    match tree.expr? up with
    | some (.call c) => return c.args.contains id
    | some (.create c) => return c.args.contains id
    | _ => return false
  | _ => return false

/-- Evaluating a condition may notice what has been added. A variable counts as noticed as soon
as it is mentioned; the implicit receiver is not looked for in function literals. -/
def isObservedBy (target : Target) (condition : NodeId) : Lookup Bool := do
  match target with
  | .variable var => return !(← tree.referencesIn var condition).isEmpty
  | .implicitReceiver =>
    let inside ← tree.descendantsWhere (fun id => !isLambda tree id) condition
    inside.anyM (readsReceiver tree)

end Target

/-! ### Collections that stay the same -/

namespace Accumulation

variable (analyzer : Analyzer) (tree : Tree)

/-- A variable is declared outside of a loop, so that it is the same variable each time. A
loop declares its own parameter. -/
def declaredOutside (loop : Option NodeId) (var : VarId) : Lookup Verdict := do
  match (← tree.var var).kind with
  | .parameter | .field _ => return .safe
  | .localVariable | .loopParameter | .lambdaParameter | .catchParameter =>
    match ← tree.declarationOf? var, loop with
    | none, _ => return .undecided .unresolvedTarget
    | some _, none => return .safe
    | some declaration, some loop =>
      -- a loop is an ancestor of itself, and declares its parameter
      if ← tree.isAncestor loop declaration then return .refused .unresolvedTarget
      else return .safe

/-- An expression means the same object each time, as `this`, `super`, class names, variables
declared outside of the loop, and fields of such expressions do. Only so many fields of fields
are looked through. -/
def staysSameWithin (loop : Option NodeId) : Nat → NodeId → Lookup Verdict
  | 0, _ => return .undecided .unresolvedTarget
  | fuel + 1, id => do
    match tree.expr? (tree.skipParens id) with
    | some .thisRef => return .safe
    | some .superRef => return .safe
    | some (.typeName _) => return .safe
    | some (.name _ (some var)) => declaredOutside tree loop var
    | some (.field owner _ (some var)) =>
      match ← declaredOutside tree loop var with
      | .safe => staysSameWithin loop fuel owner
      | other => return other
    | some (.name _ none) => return .undecided .unresolvedTarget
    | some (.field _ _ none) => return .undecided .unresolvedTarget
    | _ => return .refused .unresolvedTarget

/-- The expression at `id` means the same object each time that `loop` goes round. -/
def staysSame (loop : Option NodeId) (id : NodeId) : Lookup Verdict :=
  staysSameWithin tree loop tree.pathBound id

/-! ### Recognising an accumulation -/

/-- The call of a method `add` with one argument that the action consists of, with its id and
the argument. -/
def addCall? (action : NodeId) : Option (NodeId × Call NodeId × NodeId) :=
  match tree.stmt? action with
  | some (.expr value) =>
    let id := tree.skipParens value
    match tree.call? id with
    | some ⟨receiver, "add", [arg], target⟩ => some (id, ⟨receiver, "add", [arg], target⟩, arg)
    | _ => none
  | _ => none

/-- The collection that a call is made on, and the class that it is declared to be of. -/
def targetOf (action : NodeId) (receiver : Option NodeId) :
    Attempt Rejection (Target × String) := do
  match receiver with
  | none =>
    match tree.scope.isStatic, tree.scope.enclosingClass with
    | false, some name => return (.implicitReceiver, name)
    | _, _ => refuse .unresolvedTarget
  | some receiver =>
    let some var := tree.variableAt? receiver | refuse .unresolvedTarget
    let loop ← tree.enclosingForEach? action
    (← staysSame tree loop receiver).require
    return (.variable var, (← tree.var var).type.name)

/-- The value that is added can be computed by a mapping function. Only a call or a creation
that stands there without parentheses is looked into. -/
def checkValue (value : NodeId) : Attempt Rejection Unit := do
  if !(tree.expr? value).any Expr.isCallLike then return
  let some signature := analyzer.symbols.resolve? tree value
    | refuse (.unresolvedCall (← tree.text value))
  match signature.throws.find? fun type => !analyzer.symbols.hierarchy.isUnchecked type.name with
  | some type => refuse (.checkedException type.name)
  | none => if signature.typeParams > 0 then refuse .genericValueCall

/-- The accumulation that the action of a chain is. -/
def of (chain : GuardChain) : Attempt Rejection Accumulation := do
  let some (id, c, value) := addCall? tree chain.action | refuse .notAnAppendCall
  let some signature := analyzer.symbols.resolve? tree id
    | refuse (.unresolvedCall (← tree.text id))
  if signature.name ≠ "add" ∨ signature.params.length ≠ 1 then refuse .notAnAppendCall
  -- the call adds one value; now to what, and whether the guards and the value allow it
  let (target, className) ← targetOf tree chain.action c.receiver
  if !analyzer.symbols.hierarchy.isSubtype className "Collection" then
    refuse .targetNotCollection
  if ← (chain.conditions.anyM (target.isObservedBy tree) : Lookup Bool) then
    refuse .guardHazard
  checkValue analyzer tree value
  return ⟨id, target, c.receiver, value⟩

end Accumulation

/-- What is done with each element: an accumulation if the action is one, and otherwise
whatever the action does. -/
def LoopAction.of (analyzer : Analyzer) (tree : Tree) (chain : GuardChain) :
    Lookup LoopAction := do
  match ← (Accumulation.of analyzer tree chain).settle with
  | .ok accumulation => return .accumulate accumulation
  | .error _ => return .perform chain.action

end LoopToStream
