import LoopToStream.Tree.Links
import LoopToStream.Tree.Query

/-!
# Edits

A tree is changed by an `Edit` and in no other way. An edit is begun on a tree, collects new
nodes and operations on links, and changes nothing until it is committed. `Tree.commit` checks
the whole edit first and then carries it out as one step, so that an edit is either refused
with the tree as it was or carried out completely, which raises the revision by one.

An edit is bound to the tree that it was begun on: once the tree has changed, the edit is
stale. Beyond that, a commit demands that

* staged nodes link only nodes that exist or are staged, and no existing node twice;
* every operation is on a node that exists, hangs in the tree, and has not been replaced or
  removed by an operation before;
* statements are removed from blocks and inserted into blocks.

The operations are carried out in order, each on the tree that the ones before have left, with
the parents set anew after each.
-/

namespace LoopToStream

/-! ### Edits -/

/-- An operation on the links of a tree. -/
inductive EditOp where
  /-- The node `new` takes the place of `old`. -/
  | replace (old new : NodeId)
  /-- A statement is taken out of its block. -/
  | remove (stmt : NodeId)
  /-- The statement `stmt` is put in front of `anchor` in its block. -/
  | insertBefore (anchor stmt : NodeId)
deriving DecidableEq, Repr

namespace EditOp

/-- The node that tells where the operation takes place. -/
def anchor : EditOp → NodeId
  | replace old _ => old
  | remove stmt => stmt
  | insertBefore anchor _ => anchor

/-- The node that is put there. -/
def placed? : EditOp → Option NodeId
  | replace _ new => some new
  | remove _ => none
  | insertBefore _ stmt => some stmt

/-- The operation takes place between the statements of a block. -/
def needsBlock : EditOp → Bool
  | replace .. => false
  | remove _ | insertBefore .. => true

/-- The anchor loses its place. -/
def consumesAnchor : EditOp → Bool
  | replace .. | remove _ => true
  | insertBefore .. => false

end EditOp

/-- Nodes and operations for a tree. -/
structure Edit where
  /-- How many nodes the tree had. -/
  baseSize : Nat
  /-- The revision that the tree had. -/
  baseRevision : UInt64
  staged : Array Node
  ops : List EditOp
deriving Repr

namespace Edit

variable (edit : Edit)

/-- An edit of a tree that does nothing yet. -/
def start (tree : Tree) : Edit := ⟨tree.size, tree.revision, #[], []⟩

/-- The number of nodes after a commit. -/
def limit : Nat := edit.baseSize + edit.staged.size

/-- The id that a new node will have, and the edit with it. -/
def add (kind : Kind NodeId) (span : Span) : NodeId × Edit :=
  (⟨edit.limit⟩, { edit with staged := edit.staged.push { kind, parent := none, span } })

/-- What stands at the id of a staged node. -/
def staged? (id : NodeId) : Option (Kind NodeId) :=
  if id.index < edit.baseSize then none
  else (edit.staged[id.index - edit.baseSize]?).map Node.kind

/-- The edit with one more operation at its end. -/
def addOp (op : EditOp) : Edit := { edit with ops := edit.ops ++ [op] }

end Edit

/-! ### What speaks against an edit -/

/-- What is wrong with an edit. -/
inductive EditFault where
  | unknownLink (id : NodeId)
  | reusedTwice (id : NodeId)
  | notExisting (id : NodeId)
  | notKnown (id : NodeId)
  | notAttached (id : NodeId)
  | notInBlock (id : NodeId)
  /-- Something that whoever asked for the edit has found. -/
  | other (message : String)
deriving DecidableEq, Repr

/-- What is said about it. -/
def EditFault.message : EditFault → String
  | unknownLink id => "staged node links unknown " ++ id.text
  | reusedTwice id => id.text ++ " is reused twice"
  | notExisting id => id.text ++ " is not an existing node"
  | notKnown id => id.text ++ " is not a known node"
  | notAttached id => id.text ++ " is not attached to the tree"
  | notInBlock id => id.text ++ " is not a statement of a block"
  | other message => message

/-- Why an edit is refused. -/
inductive CommitRefusal where
  /-- The edit was begun on another state of the tree. -/
  | stale (expected actual : UInt64)
  | invalid (fault : EditFault)
deriving DecidableEq, Repr

/-- Refusing an edit for what is wrong with it. -/
def EditFault.refuse {α : Type} (fault : EditFault) : Attempt CommitRefusal α :=
  LoopToStream.refuse (.invalid fault)

/-! ### Checking an edit -/

namespace Edit

variable (edit : Edit) (tree : Tree)

/-- The links of the staged nodes lead to nodes that exist or are staged, and to each existing
node at most once; `adopted` are the existing nodes that have been linked before. -/
def checkLinks : List NodeId → List NodeId → Attempt CommitRefusal Unit
  | _, [] => return ()
  | adopted, child :: rest =>
    if child.index ≥ edit.limit then (EditFault.unknownLink child).refuse
    -- staged nodes may be linked as often as one likes
    else if child.index ≥ edit.baseSize then checkLinks adopted rest
    else if adopted.contains child then (EditFault.reusedTwice child).refuse
    else checkLinks (child :: adopted) rest

/-- The operations can be carried out; `consumed` are the nodes that have lost their place. -/
def checkOps : List NodeId → List EditOp → Attempt CommitRefusal Unit
  | _, [] => return ()
  | consumed, op :: rest => do
    -- the ids first: what follows looks at the tree
    if op.anchor.index ≥ edit.baseSize then (EditFault.notExisting op.anchor).refuse
    if let some placed := op.placed? then
      if placed.index ≥ edit.limit then (EditFault.notKnown placed).refuse
    -- an anchor without a place, by an operation before or from the beginning
    if consumed.contains op.anchor then (EditFault.notAttached op.anchor).refuse
    if !(← tree.isAttached op.anchor) then (EditFault.notAttached op.anchor).refuse
    if op.needsBlock then
      if !(← tree.isInBlock op.anchor) then (EditFault.notInBlock op.anchor).refuse
    checkOps (if op.consumesAnchor then op.anchor :: consumed else consumed) rest

/-- Nothing speaks against committing the edit to the tree. -/
def check : Attempt CommitRefusal Unit := do
  if edit.baseRevision ≠ tree.revision ∨ edit.baseSize ≠ tree.size then
    refuse (.stale edit.baseRevision tree.revision)
  edit.checkLinks [] (edit.staged.toList.flatMap fun node => node.kind.children)
  edit.checkOps tree [] edit.ops

end Edit

/-! ### Carrying an edit out -/

namespace Tree

variable (tree : Tree)

/-- The tree with the layer at `id` changed. -/
def modifyKind (id : NodeId) (f : Kind NodeId → Kind NodeId) : Tree :=
  { tree with nodes := tree.nodes.modify id.index fun node => { node with kind := f node.kind } }

/-- A layer with the statements changed, if it is a block. -/
def mapBlock (f : List NodeId → List NodeId) : Kind NodeId → Kind NodeId
  | .stmt (.block stmts) => .stmt (.block (f stmts))
  | other => other

/-- The list with `stmt` in front of the first `anchor`, or in front of everything. -/
def insertInFront (anchor stmt : NodeId) (stmts : List NodeId) : List NodeId :=
  if stmts.contains anchor then
    stmts.takeWhile (· ≠ anchor) ++ stmt :: stmts.dropWhile (· ≠ anchor)
  else stmt :: stmts

/-- The tree with the links changed, its parents as they were before. -/
def changeLinks : EditOp → Lookup Tree
  | .replace old new => do
    match ← tree.parent old with
    -- the top, or a node that an operation before has cut off
    | none => return { tree with root := new }
    | some up =>
      discard (tree.node up)
      return tree.modifyKind up fun kind => kind.map fun id => if id = old then new else id
  | .remove stmt => do
    match ← tree.parent stmt with
    | none => return tree
    | some up =>
      discard (tree.node up)
      return tree.modifyKind up (mapBlock fun stmts => stmts.filter (· ≠ stmt))
  | .insertBefore anchor stmt => do
    match ← tree.parent anchor with
    | none => return tree
    | some up =>
      discard (tree.node up)
      return tree.modifyKind up (mapBlock (insertInFront anchor stmt))

/-- One operation, with the parents set anew. -/
def applyOp (op : EditOp) : Lookup Tree := do (← tree.changeLinks op).relink

/-- The tree with all that the edit asks for, checked or not. -/
def carryOut (edit : Edit) : Lookup Tree := do
  let changed ← edit.ops.foldlM applyOp { tree with nodes := tree.nodes ++ edit.staged }
  return { changed with revision := changed.revision + 1 }

/-- The tree after an edit. -/
def commit (edit : Edit) : Attempt CommitRefusal Tree := do
  edit.check tree
  tree.carryOut edit

end Tree

end LoopToStream
