import LoopToStream.Tree.Basic

/-!
# Walks through a tree

Down, along the parts, and up, along the parents:

* `Tree.preorder id` lists `id` and everything below it, a node before its parts and the parts
  left to right. `Tree.preorderWhere` leaves out what is below the nodes that it does not
  enter. Both are total: an id that names no node is listed and has nothing below it.
* `Tree.descendants` and its kin are the same lists as lookups, which end at a dangling id.
* `Tree.climb` goes from a node to the one that links it, and on to the top, until a judgement
  is made.
* `Tree.bottomUp` reads a subtree by reading each layer over what its parts were read as.

The links of a tree are meant to be free of cycles. A walk is given one step more than there
are nodes, which is enough for every path that does not return to a node; nothing else is
asked of the tree here. A node that is linked from several places is visited from each.
-/

namespace LoopToStream

/-! ### Depth-first order -/

/-- The id and what is below it by `next`, in front of `rest`: a node comes right before what
follows from its successors, and these come in their order. -/
def depthFirst (next : NodeId → List NodeId) : Nat → NodeId → List NodeId → List NodeId
  | 0, _, rest => rest
  | fuel + 1, id, rest => id :: (next id).foldr (depthFirst next fuel) rest

@[simp] theorem depthFirst_zero (next : NodeId → List NodeId) (id : NodeId)
    (rest : List NodeId) : depthFirst next 0 id rest = rest := rfl

/-- What is put in front of `rest` does not depend on `rest`. -/
theorem depthFirst_append (next : NodeId → List NodeId) (fuel : Nat) (id : NodeId)
    (rest : List NodeId) :
    depthFirst next fuel id rest = depthFirst next fuel id [] ++ rest := by
  induction fuel generalizing id rest with
  | zero => rfl
  | succ fuel ih =>
    -- the same for a list of successors, each of them by the induction hypothesis
    have hfold : ∀ ids : List NodeId, ∀ tail : List NodeId,
        ids.foldr (depthFirst next fuel) tail = ids.foldr (depthFirst next fuel) [] ++ tail := by
      intro ids
      induction ids with
      | nil => intro tail; rfl
      | cons i ids ihs =>
        intro tail
        rw [List.foldr_cons, List.foldr_cons, ihs tail, ih,
          ih i (ids.foldr (depthFirst next fuel) []), List.append_assoc]
    simp [depthFirst, hfold (next id) rest]

/-- The order spelled out: a node, then the orders of its successors one after the other. -/
theorem depthFirst_succ (next : NodeId → List NodeId) (fuel : Nat) (id : NodeId) :
    depthFirst next (fuel + 1) id [] =
      id :: (next id).flatMap fun child => depthFirst next fuel child [] := by
  -- folding puts each order in front of those to its right, which is concatenation
  have hfold : ∀ ids : List NodeId, ids.foldr (depthFirst next fuel) [] =
      ids.flatMap fun child => depthFirst next fuel child [] := by
    intro ids
    induction ids with
    | nil => rfl
    | cons i ids ih => rw [List.foldr_cons, depthFirst_append, ih, List.flatMap_cons]
  rw [depthFirst, hfold]

namespace Tree

variable (tree : Tree)

/-- More steps than any path without a return can have. -/
def pathBound : Nat := tree.size + 1

/-! ### Down the links -/

/-- The id and everything below it. -/
def preorder (id : NodeId) : List NodeId := depthFirst tree.parts tree.pathBound id []

/-- The id and everything below it that can be reached without passing through a node that
`enter` refuses. Such nodes are still listed, and `id` itself is always entered. -/
def preorderWhere (enter : NodeId → Bool) (id : NodeId) : List NodeId :=
  depthFirst (fun node => if node = id ∨ enter node then tree.parts node else [])
    tree.pathBound id []

/-- The ids as a lookup, lost at the first of them that names no node. -/
def allFound (ids : List NodeId) : Lookup (List NodeId) := do
  ids.forM fun id => discard (tree.node id)
  return ids

/-- The id and everything below it, where every link leads to a node. -/
def descendants (id : NodeId) : Lookup (List NodeId) := tree.allFound (tree.preorder id)

/-- Like `descendants`, not going into the nodes below `id` that `enter` refuses. -/
def descendantsWhere (enter : NodeId → Bool) (id : NodeId) : Lookup (List NodeId) :=
  tree.allFound (tree.preorderWhere enter id)

/-- The id and what is below it, without what is inside of function literals and method
references below `id`. -/
def descendantsOutsideClosures (id : NodeId) : Lookup (List NodeId) :=
  tree.descendantsWhere (fun node => !tree.isClosure node) id

/-! ### Up the parents -/

/-- The first judgement on the way up from `id`. A judgement is made on a node together with
the one below it that the way came through. -/
def climbWithin {β : Type} (judge : NodeId → NodeId → Option β) :
    Nat → NodeId → Lookup (Option β)
  | 0, _ => return none
  | fuel + 1, id => do
    match ← tree.parent id with
    | none => return none
    | some up =>
      -- judged before it is looked up: the judgement may end the way at a missing node
      match judge id up with
      | some verdict => return some verdict
      | none => climbWithin judge fuel up

/-- The first judgement on the way from `id` to the top; `none` if none is made. -/
def climb {β : Type} (judge : NodeId → NodeId → Option β) (id : NodeId) : Lookup (Option β) :=
  tree.climbWithin judge tree.pathBound id

/-- The way up from `id` comes through `target`. -/
def climbsTo (target id : NodeId) : Lookup Bool :=
  return (← tree.climb (fun _ up => if up = target then some () else none) id).isSome

/-- The node `ancestor` is above `id`. -/
def isProperAncestor (ancestor id : NodeId) : Lookup Bool := tree.climbsTo ancestor id

/-- The node `ancestor` is `id` or above it. -/
def isAncestor (ancestor id : NodeId) : Lookup Bool :=
  if id = ancestor then return true else tree.climbsTo ancestor id

/-- The way up from `id` ends at the top of the tree. -/
def isAttached (id : NodeId) : Lookup Bool := tree.isAncestor tree.root id

/-! ### Reading layer by layer -/

/-- Reads what is below `id` with so many layers, each by `step` over what its parts were
read as. -/
def bottomUpWithin {α : Type} (step : NodeId → Kind α → Lookup α) : Nat → NodeId → Lookup α
  -- a path longer than the table returns to a node, which is never read completely
  | 0, id => .error (.node id)
  | fuel + 1, id => do
    step id (← (← tree.kind id).mapM (bottomUpWithin step fuel))

/-- Reads a subtree by `step`, which gets each layer with its parts already read. -/
def bottomUp {α : Type} (step : NodeId → Kind α → Lookup α) (id : NodeId) : Lookup α :=
  tree.bottomUpWithin step tree.pathBound id

end Tree

end LoopToStream
