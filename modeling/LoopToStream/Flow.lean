import LoopToStream.Tree.Query

/-!
# What a piece of code does to its surroundings

Four questions about a statement or expression, each answered by one walk:

* `Flow.exits` — which statements leave it: every `return` and `throw`, and the jumps whose
  target is not inside;
* `Flow.used` — which variables are referred to;
* `Flow.written` — which variables are assigned, incremented or decremented;
* `Flow.isEffectivelyFinal` — whether a variable keeps its value well enough for a function
  literal that takes the place of the code to refer to it.

The inside of function literals counts for uses and writes and does not count for exits.

A walk looks at the nodes of a subtree one after the other. `Flow` bounds it: a query may look at
so many nodes and no more, and it may have been canceled. `Flow.look` is the one place where both
are checked, before each node. A raised cancel flag is noticed at the first node, an exhausted
budget at the first node beyond it; a link that leads nowhere is noticed after the budget has been
charged for it. No budget is carried over from one query to the next.

Sets whose members are shown in order are kept as ascending lists without repetition:
`Ascending.ofList` sorts a list and drops its repetitions, for a given strict order.
-/

namespace LoopToStream

/-! ### Bounded walks -/

/-- Why a flow query was given up. -/
inductive AnalysisError where
  | canceled
  | timeout
deriving DecidableEq, Repr

/-- What is said about it. -/
def AnalysisError.message : AnalysisError → String
  | .canceled => "analysis canceled"
  | .timeout => "analysis exceeded its budget"

/-- The bounds of flow queries. -/
structure Flow where
  /-- How many nodes a query may look at; missing if as many as there are. -/
  budget : Option Nat
  canceled : Bool
deriving DecidableEq, Repr

namespace Flow

variable {α : Type} (flow : Flow) (tree : Tree)

/-- Queries without bounds. -/
def unbounded : Flow := ⟨none, false⟩

/-- The budget does not cover the node with this number, counted from one. -/
def exhausted (number : Nat) : Bool := flow.budget.any (· < number)

/-- What `see` finds at the nodes of a list, of which so many others have been looked at
before. -/
def look (see : NodeId → Lookup (List α)) : Nat → List NodeId → Attempt AnalysisError (List α)
  | _, [] => return []
  | before, id :: rest => do
    if flow.canceled then refuse .canceled
    else if flow.exhausted (before + 1) then refuse .timeout
    else
      -- the node counts before it turns out whether there is one
      let found ← see id
      discard (tree.node id)
      return found ++ (← look see (before + 1) rest)

/-- What `see` finds at `body` and everything below it. -/
def query (see : NodeId → Lookup (List α)) (body : NodeId) : Attempt AnalysisError (List α) :=
  flow.look tree see 0 (tree.preorder body)

/-- Like `query`, not going into function literals and method references below `body`. -/
def queryOutsideClosures (see : NodeId → Lookup (List α)) (body : NodeId) :
    Attempt AnalysisError (List α) :=
  flow.look tree see 0 (tree.preorderWhere (fun node => !tree.isClosure node) body)

end Flow

/-! ### Ascending lists -/

namespace Ascending

variable {α : Type} [DecidableEq α] (before : α → α → Bool)

/-- An ascending list with `a` among its members. -/
def insert (a : α) : List α → List α
  | [] => [a]
  | b :: rest =>
    if a = b then b :: rest
    else if before a b then a :: b :: rest
    else b :: insert a rest

/-- The members of a list in ascending order, each once. -/
def ofList (items : List α) : List α := items.foldr (insert before) []

theorem mem_insert {a x : α} {items : List α} :
    x ∈ insert before a items ↔ x = a ∨ x ∈ items := by
  induction items with
  | nil => simp [insert]
  | cons b rest ih =>
    unfold insert
    split
    -- already there
    · next h => simp [h]
    · split
      -- in front of the head
      · simp
      -- further back
      · simp only [List.mem_cons, ih]
        exact or_left_comm

theorem mem_ofList {x : α} {items : List α} : x ∈ ofList before items ↔ x ∈ items := by
  induction items with
  | nil => simp [ofList]
  | cons a rest ih =>
    rw [ofList, List.foldr_cons, mem_insert]
    simpa [ofList] using or_congr Iff.rfl ih

end Ascending

/-! ### How code is left -/

/-- How a statement leaves the code around it. -/
inductive Exit where
  | breaks
  | continues
  | returns
  | throws
deriving DecidableEq, Repr

/-- The keyword of the statement. -/
def Exit.text : Exit → String
  | .breaks => "break"
  | .continues => "continue"
  | .returns => "return"
  | .throws => "throw"

/-- Variables are listed by their ids. -/
def VarId.before (a b : VarId) : Bool := a.index < b.index

namespace Flow

variable (flow : Flow) (tree : Tree)

/-! ### Exits -/

/-- A jump with this label, or without one, ends up at the statement at `id`. -/
def isJumpTarget (label : Option String) (id : NodeId) : Bool :=
  match tree.stmt? id, label with
  | some s, none => s.isLoop
  | some (.labeled name _), some label => name = label
  | _, _ => false

/-- The target of a jump at `jump` is `body` or inside of it. -/
def staysInside (body : NodeId) (label : Option String) (jump : NodeId) : Lookup Bool :=
  return (← tree.climb (fun _ up =>
    if isJumpTarget tree label up then some true
    else if up = body then some false
    else none) jump).getD false

/-- How the statement at `id` leaves `body`, if it does. -/
def exitAt (body id : NodeId) : Lookup (List (NodeId × Exit)) := do
  match tree.stmt? id with
  | some (.breakTo label) =>
    return if ← staysInside tree body label id then [] else [(id, .breaks)]
  | some (.continueTo label) =>
    return if ← staysInside tree body label id then [] else [(id, .continues)]
  | some (.giveBack _) => return [(id, .returns)]
  | some (.throwValue _) => return [(id, .throws)]
  | _ => return []

/-- The statements in `body` that leave it, in preorder. -/
def exits (body : NodeId) : Attempt AnalysisError (List (NodeId × Exit)) :=
  flow.queryOutsideClosures tree (exitAt tree body) body

/-! ### Uses and writes -/

/-- The variables referred to at or below `body`. -/
def used (body : NodeId) : Attempt AnalysisError (List VarId) :=
  return Ascending.ofList VarId.before
    (← flow.query tree (fun id => return ((tree.expr? id).bind Expr.var?).toList) body)

/-- What the expression at `id` writes to: the target of an assignment or the operand of an
increment or decrement. -/
def writtenAt? (id : NodeId) : Option NodeId :=
  match tree.expr? id with
  | some (.assign _ target _) => some target
  | some (.unary op operand) => if op.writesOperand then some operand else none
  | _ => none

/-- The expressions at or below `body` that write to a variable, each with the variable. -/
def writes (body : NodeId) : Attempt AnalysisError (List (NodeId × VarId)) :=
  flow.query tree (fun id =>
    return (((writtenAt? tree id).bind tree.variableAt?).map fun var => (id, var)).toList) body

/-- The variables written at or below `body`. -/
def written (body : NodeId) : Attempt AnalysisError (List VarId) :=
  return Ascending.ofList VarId.before ((← flow.writes tree body).map Prod.snd)

/-! ### Finality -/

/-- The declaration of a local variable by a statement of its own has an initial value;
`none` if no such statement is the first to declare it. -/
def hasInitialValue? (var : VarId) : Lookup (Option Bool) := do
  let some declaration ← tree.declarationOf? var | return none
  match tree.stmt? declaration with
  | some (.declare _ init) => return some init.isSome
  | _ => return none

/-- A function literal in the place of `body` may refer to a variable: it is declared final, or
nothing in the tree writes to it. A local variable without an initial value may be written
once, outside of `body`; one that no statement declares never qualifies. -/
def isEffectivelyFinal (var : VarId) (body : NodeId) : Attempt AnalysisError Bool := do
  let declared ← tree.var var
  if declared.isFinal then return true
  -- the whole tree is looked at, not just `body`
  let sites := ((← flow.writes tree tree.root).filter fun write => write.2 = var).map Prod.fst
  match declared.kind with
  | .localVariable =>
    match ← hasInitialValue? tree var with
    | some true => return sites.isEmpty
    | some false =>
      match sites with
      | [] => return true
      -- the one write is the initialization, unless the literal would make it
      | [site] => return !(← tree.isAncestor body site)
      | _ => return false
    | none => return false
  | _ => return sites.isEmpty

end Flow

end LoopToStream
