import LoopToStream.Tree.Walk

/-!
# Parent links

The parts of a node are stored with the node; the parent of a node is derived from them by
`Tree.relink`. Only what can be reached from the top gets a parent, and the top itself has
none. A node that is linked from several places gets the parent that is visited last, where a
walk visits a node before its parts and the parts from right to left.

`Tree.ofKinds` puts a tree together from its layers: node number `i` covers the eight
characters from `8 * i` of file 0.
-/

namespace LoopToStream

namespace Tree

variable (tree : Tree)

/-- The nodes that hand out parents, in the order in which they do. -/
def linkOrder : List NodeId :=
  depthFirst (fun id => (tree.parts id).reverse) tree.pathBound tree.root []

/-- The table with a new parent for one node. -/
def setParent (parent : NodeId) (nodes : Array Node) (child : NodeId) : Array Node :=
  nodes.modify child.index fun node => { node with parent := some parent }

/-- The table with `id` as the parent of its parts. -/
def adoptParts (nodes : Array Node) (id : NodeId) : Array Node :=
  (tree.parts id).foldl (setParent id) nodes

/-- The table without any parent. -/
def orphaned : Array Node := tree.nodes.map fun node => { node with parent := none }

/-- The tree with its parents set anew from the parts. -/
def relink : Lookup Tree := do
  let order ← tree.allFound tree.linkOrder
  -- a later visit overrules an earlier one
  return { tree with nodes := order.foldl tree.adoptParts tree.orphaned }

/-! ### Putting a tree together -/

/-- The place given to node number `i`. -/
def placeOf (i : Nat) : Span := ⟨0, UInt32.ofNat (8 * i), UInt32.ofNat (8 * i + 8)⟩

/-- The tree whose node number `i` is the `i`-th of `kinds`. -/
def ofKinds (scope : Scope) (vars : Array Variable) (kinds : List (Kind NodeId))
    (root : NodeId) : Lookup Tree :=
  let nodes := kinds.mapIdx fun i kind => { kind, parent := none, span := placeOf i }
  relink { nodes := nodes.toArray, vars, root, scope, revision := 0 }

/-- The name of a variable in a table of variables. -/
def nameIn (vars : Array Variable) (var : VarId) : Lookup String :=
  match vars[var.index]? with
  | some v => .ok v.name
  | none => .error (.var var)

/-- A simple name that stands for a variable. -/
def reference (vars : Array Variable) (var : VarId) : Lookup (Kind NodeId) :=
  return .expr (.name (← nameIn vars var) (some var))

/-- A field of `receiver` that stands for a variable. -/
def fieldReference (vars : Array Variable) (receiver : NodeId) (var : VarId) :
    Lookup (Kind NodeId) :=
  return .expr (.field receiver (← nameIn vars var) (some var))

end Tree

end LoopToStream
