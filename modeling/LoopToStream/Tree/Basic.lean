import LoopToStream.Code.Kind

/-!
# The tree of a method body

A `Tree` is the code of one method body: a table of nodes, a table of the variables that the
code refers to, the node at the top, the scope that the body stands in, and a revision that
counts how often the tree has been changed. A node is one layer of code over the ids of its
parts, with the node that links it and its place in the source.

The table may hold nodes that are not reachable from the top. Nodes never move: an id keeps
its meaning as long as the tree lives.

A tree links its nodes by ids, and nothing forces an id to name an entry of its table. Every
question that follows a link therefore has an answer in `Lookup`: the answer, or the dangling
reference at which the search for it ended. No question invents an entry. Questions that may
also be declined for a reason of their own are in `Attempt ε`, where `ε` is the type of the
reasons. A dangling reference is never turned into such a reason, and a reason never hides one:
of the two, an attempt reports the one that it meets first.

So there are two ways to look at a node. `tree.kind? id`, with `stmt?`, `expr?` and `comment?`,
asks what stands at `id` and takes "nothing" for an answer. `tree.kind id`, with `node`,
`span`, `parent`, `children` and `var`, follows a link that must lead somewhere, and answers in
`Lookup`.
-/

namespace LoopToStream

/-! ### Answers that may be missing -/

/-- A reference to an entry that its table does not have. -/
inductive Dangling where
  | node (id : NodeId)
  | var (id : VarId)
deriving DecidableEq, Repr

/-- An answer, or the dangling reference at which it is lost. -/
abbrev Lookup : Type → Type := Except Dangling

/-- Why an attempt has no answer. -/
inductive Refusal (ε : Type) where
  | dangling (ref : Dangling)
  | because (reason : ε)
deriving DecidableEq, Repr

/-- An answer, a reason in `ε` for declining to answer, or a dangling reference. -/
abbrev Attempt (ε : Type) : Type → Type := Except (Refusal ε)

section

variable {ε ε' α : Type}

/-- Declining to answer for a reason. -/
def refuse (reason : ε) : Attempt ε α := .error (.because reason)

namespace Attempt

/-- A lookup inside an attempt. -/
def ofLookup : Lookup α → Attempt ε α
  | .ok a => .ok a
  | .error ref => .error (.dangling ref)

instance : MonadLift Lookup (Attempt ε) := ⟨ofLookup⟩

@[simp] theorem ofLookup_ok (a : α) : (ofLookup (.ok a) : Attempt ε α) = .ok a := rfl

@[simp] theorem ofLookup_error (ref : Dangling) :
    (ofLookup (.error ref) : Attempt ε α) = .error (.dangling ref) := rfl

/-- The same attempt with its reasons put in other words. -/
def mapReason (f : ε → ε') : Attempt ε α → Attempt ε' α
  | .ok a => .ok a
  | .error (.dangling ref) => .error (.dangling ref)
  | .error (.because reason) => .error (.because (f reason))

@[simp] theorem mapReason_ok (f : ε → ε') (a : α) :
    mapReason f (.ok a : Attempt ε α) = .ok a := rfl

@[simp] theorem mapReason_refuse (f : ε → ε') (reason : ε) :
    mapReason f (refuse reason : Attempt ε α) = refuse (f reason) := rfl

/-- An attempt as a lookup whose answer says whether the attempt was declined. -/
def settle : Attempt ε α → Lookup (Except ε α)
  | .ok a => .ok (.ok a)
  | .error (.because reason) => .ok (.error reason)
  | .error (.dangling ref) => .error ref

@[simp] theorem settle_ok (a : α) : settle (.ok a : Attempt ε α) = .ok (.ok a) := rfl

@[simp] theorem settle_refuse (reason : ε) :
    settle (refuse reason : Attempt ε α) = .ok (.error reason) := rfl

end Attempt

end

/-! ### Trees -/

/-- One layer of code at its place. -/
structure Node where
  kind : Kind NodeId
  /-- The node that links this one; missing at the top and where no link leads. -/
  parent : Option NodeId
  span : Span
deriving Repr

/-- The code of one method body. -/
structure Tree where
  nodes : Array Node
  vars : Array Variable
  root : NodeId
  scope : Scope
  /-- Raised by one with every change. -/
  revision : UInt64
deriving Repr

namespace Tree

variable (tree : Tree)

/-- The number of nodes in the table, reachable or not. -/
def size : Nat := tree.nodes.size

/-! ### What stands at an id -/

/-- The node at an id, if the table has one. -/
def node? (id : NodeId) : Option Node := tree.nodes[id.index]?

/-- What stands at an id, if the table has it. -/
def kind? (id : NodeId) : Option (Kind NodeId) := (tree.node? id).map Node.kind

/-- The statement at an id. -/
def stmt? (id : NodeId) : Option (Stmt NodeId) := (tree.kind? id).bind Kind.stmt?

/-- The expression at an id. -/
def expr? (id : NodeId) : Option (Expr NodeId) := (tree.kind? id).bind Kind.expr?

/-- The text of the comment at an id. -/
def comment? (id : NodeId) : Option String := (tree.kind? id).bind Kind.comment?

/-- The parts of the node at an id; an id that names no node has none. -/
def parts (id : NodeId) : List NodeId := ((tree.kind? id).map Kind.children).getD []

/-- The call at an id. -/
def call? (id : NodeId) : Option (Call NodeId) := (tree.expr? id).bind Expr.call?

/-- The loop over a collection at an id. -/
def forEach? (id : NodeId) : Option (ForEach NodeId) := (tree.stmt? id).bind Stmt.forEach?

/-- A block stands at an id. -/
def isBlock (id : NodeId) : Bool := (tree.stmt? id).any Stmt.isBlock

/-- A function literal or a method reference stands at an id. -/
def isClosure (id : NodeId) : Bool := (tree.expr? id).any Expr.isClosure

/-! ### Following links -/

/-- The node that a link leads to. -/
def node (id : NodeId) : Lookup Node :=
  match tree.node? id with
  | some node => .ok node
  | none => .error (.node id)

/-- What stands where a link leads. -/
def kind (id : NodeId) : Lookup (Kind NodeId) := return (← tree.node id).kind

/-- The place in the source of a node. -/
def span (id : NodeId) : Lookup Span := return (← tree.node id).span

/-- The node that links a node. -/
def parent (id : NodeId) : Lookup (Option NodeId) := return (← tree.node id).parent

/-- The parts of a node, left to right. -/
def children (id : NodeId) : Lookup (List NodeId) := return (← tree.kind id).children

/-- The declaration of a variable that the code refers to. -/
def var (id : VarId) : Lookup Variable :=
  match tree.vars[id.index]? with
  | some v => .ok v
  | none => .error (.var id)

theorem node_eq_ok {id : NodeId} {n : Node} : tree.node id = .ok n ↔ tree.node? id = some n := by
  unfold node; split <;> simp_all

end Tree

end LoopToStream
