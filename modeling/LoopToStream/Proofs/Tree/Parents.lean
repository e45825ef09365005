import LoopToStream.Proofs.Tree.Grounded
import LoopToStream.Tree.Links
import Mathlib.Data.List.Basic

/-!
# Parents from parts

`Tree.relink` derives the parents of a tree from its parts by letting the nodes hand them out
one after the other. This file says what comes out, without the order of handing out:

* `Tree.relink_eq_ok` — setting the parents anew succeeds if all that can be reached is there,
  and gives `Tree.relinked`, which differs from the tree in its parents only
  (`Tree.relinked_node?`);
* `Tree.relinked_relinked` — doing so twice is doing so once;
* `Tree.Relinked.parent?_of_only_link`, `Tree.Relinked.parent?_of_no_link` — in a tree whose
  parents are as they would be set, a node that a single reachable node links has that node as
  its parent, and a node that none links has no parent.
-/

namespace LoopToStream

namespace Tree

variable {tree tree' : Tree} {p c n id : NodeId} {nodes : Array Node}

/-! ### Handing out parents -/

/-- The tree with its parents set anew, whether or not every link leads to a node. -/
def relinked (tree : Tree) : Tree :=
  { tree with nodes := tree.linkOrder.foldl tree.adoptParts tree.orphaned }

/-- The node that hands out the parent of `id`: the last of those that link it. -/
def lastLink? (tree : Tree) (order : List NodeId) (id : NodeId) : Option NodeId :=
  (order.filter fun p => id ∈ tree.parts p).getLast?

theorem lastLink?_cons (order : List NodeId) :
    tree.lastLink? (p :: order) id =
      (tree.lastLink? order id <|> if id ∈ tree.parts p then some p else none) := by
  by_cases h : id ∈ tree.parts p
  · simp only [lastLink?, List.filter_cons, h, decide_true, if_true, List.getLast?_cons]
    cases (order.filter fun q => id ∈ tree.parts q).getLast? <;> rfl
  · simp [lastLink?, h]

theorem setParent_getElem? : (setParent p nodes c)[id.index]? =
    nodes[id.index]?.map fun node => if id = c then { node with parent := some p } else node := by
  rw [setParent, Array.getElem?_modify]
  by_cases h : id = c
  · simp [h]
  · have hne : ¬ c.index = id.index := fun heq => h (by cases id; cases c; simp_all)
    simp [h, hne]

theorem adoptParts_getElem? : (tree.adoptParts nodes p)[id.index]? =
    nodes[id.index]?.map fun node =>
      if id ∈ tree.parts p then { node with parent := some p } else node := by
  have hfold : ∀ (l : List NodeId) (nodes : Array Node),
      (l.foldl (setParent p) nodes)[id.index]? = nodes[id.index]?.map fun node =>
        if id ∈ l then { node with parent := some p } else node := by
    intro l
    induction l with
    | nil => simp
    | cons c l ih =>
      -- a parent that is set twice is set to the same node
      intro nodes
      rw [List.foldl_cons, ih, setParent_getElem?, Option.map_map]
      congr 1
      funext node
      by_cases hc : id = c <;> by_cases hl : id ∈ l <;> simp [hc, hl]
  exact hfold (tree.parts p) nodes

/-- What a table looks like after some nodes have handed out parents. -/
theorem foldl_adoptParts_getElem? (order : List NodeId) :
    (order.foldl tree.adoptParts nodes)[id.index]? = nodes[id.index]?.map fun node =>
      { node with parent := tree.lastLink? order id <|> node.parent } := by
  induction order generalizing nodes with
  | nil => simp [lastLink?]
  | cons p order ih =>
    rw [List.foldl_cons, ih, adoptParts_getElem?, Option.map_map, lastLink?_cons]
    congr 1
    funext node
    by_cases h : id ∈ tree.parts p <;> cases tree.lastLink? order id <;> simp [h]

/-- A tree with its parents set anew has all else as it was. -/
theorem relinked_node? (tree : Tree) (id : NodeId) : tree.relinked.node? id =
    (tree.node? id).map fun node => { node with parent := tree.lastLink? tree.linkOrder id } := by
  change (tree.linkOrder.foldl tree.adoptParts tree.orphaned)[id.index]? = _
  rw [foldl_adoptParts_getElem?, orphaned, Array.getElem?_map, Option.map_map]
  simp [node?, Function.comp_def]

@[simp] theorem relinked_root : tree.relinked.root = tree.root := rfl

@[simp] theorem relinked_vars : tree.relinked.vars = tree.vars := rfl

@[simp] theorem relinked_scope : tree.relinked.scope = tree.scope := rfl

@[simp] theorem relinked_revision : tree.relinked.revision = tree.revision := rfl

@[simp] theorem relinked_kind? : tree.relinked.kind? id = tree.kind? id := by
  simp [kind?, relinked_node?, Function.comp_def]

@[simp] theorem relinked_size : tree.relinked.size = tree.size := by
  -- setting parents rewrites entries of the table and adds none
  have hadopt : ∀ (p : NodeId) (l : List NodeId) (nodes : Array Node),
      (l.foldl (setParent p) nodes).size = nodes.size := by
    intro p l
    induction l with
    | nil => simp
    | cons c l ih => intro nodes; simp [ih, setParent]
  have hfold : ∀ (order : List NodeId) (nodes : Array Node),
      (order.foldl tree.adoptParts nodes).size = nodes.size := by
    intro order
    induction order with
    | nil => simp
    | cons p order ih => intro nodes; rw [List.foldl_cons, ih, adoptParts]; exact hadopt ..
  simp [relinked, size, hfold, orphaned]

@[simp] theorem relinked_parts : tree.relinked.parts id = tree.parts id := by
  simp [parts]

@[simp] theorem relinked_linkOrder : tree.relinked.linkOrder = tree.linkOrder := by
  have hparts : tree.relinked.parts = tree.parts := funext fun _ => relinked_parts
  rw [linkOrder, linkOrder, pathBound, pathBound, relinked_size, relinked_root, hparts]

/-- Places in the source do not depend on parents. -/
@[simp] theorem relinked_span : tree.relinked.span id = tree.span id := by
  cases h : tree.node? id <;> simp [span, node, relinked_node?, h]

/-- **Setting the parents twice** is setting them once. -/
@[simp] theorem relinked_relinked : tree.relinked.relinked = tree.relinked := by
  -- the links are those of the tree as it was, and only they decide on the parents
  have hnodes : tree.relinked.relinked.nodes = tree.relinked.nodes := by
    refine Array.ext_getElem? fun i => ?_
    have hid := relinked_node? tree.relinked ⟨i⟩
    simp only [node?, lastLink?, relinked_linkOrder, relinked_parts] at hid
    have hid' := relinked_node? tree ⟨i⟩
    simp only [node?, lastLink?] at hid'
    -- the second setting of a parent overwrites the first by the same value
    rw [hid, hid', Option.map_map]
    rfl
  calc tree.relinked.relinked = { tree with nodes := tree.relinked.relinked.nodes } := rfl
    _ = { tree with nodes := tree.relinked.nodes } := by rw [hnodes]
    _ = tree.relinked := rfl

/-- Nothing changes where each parent is the one that would be set. -/
theorem relinked_eq_self (h : ∀ id node, tree.node? id = some node →
    node.parent = tree.lastLink? tree.linkOrder id) : tree.relinked = tree := by
  have hnodes : tree.relinked.nodes = tree.nodes := by
    refine Array.ext_getElem? fun i => (relinked_node? tree ⟨i⟩).trans ?_
    change (tree.node? ⟨i⟩).map _ = tree.node? ⟨i⟩
    -- ids beyond the table have no entry that could change
    cases hnode : tree.node? ⟨i⟩ with
    | none => rfl
    | some node => simp [← h _ node hnode]
  calc tree.relinked = { tree with nodes := tree.relinked.nodes } := rfl
    _ = tree := by rw [hnodes]

/-! ### When setting parents succeeds -/

/-- What can be reached from the top hands out parents. -/
theorem mem_linkOrder : n ∈ tree.linkOrder ↔ tree.Reaches tree.root n := by
  -- the order goes through the parts from the back, which reaches the same nodes
  have hrel : (fun p c => c ∈ (tree.parts p).reverse) = fun p c => c ∈ tree.parts p := by
    simp
  constructor
  · intro h
    have := reflTransGen_of_mem_depthFirst h
    rwa [hrel] at this
  · intro h
    have hway : Relation.ReflTransGen (fun p c => c ∈ (tree.parts p).reverse) tree.root n := by
      rw [hrel]
      exact h
    have := mem_depthFirst_of_reflTransGen tree.ids (fun x hx => mem_ids.2 ?_) hway
    · rwa [card_ids] at this
    · -- a node with parts is in the table, and so on the list of ids that bounds the walk
      obtain ⟨c, hc⟩ := List.exists_mem_of_ne_nil _ hx
      exact lt_size_of_mem_parts (List.mem_reverse.1 hc)

theorem relink_eq_ok (h : ∀ n, tree.Reaches tree.root n → n.index < tree.size) :
    tree.relink = .ok tree.relinked := by
  rw [relink, allFound_eq_ok fun n hn => h n (mem_linkOrder.1 hn)]
  rfl

theorem eq_relinked_of_relink (h : tree.relink = .ok tree') : tree' = tree.relinked := by
  obtain ⟨order, horder, hret⟩ := bind_eq_ok.1 h
  obtain ⟨-, -, hids⟩ := bind_eq_ok.1 horder
  cases hids
  cases hret
  rfl

/-! ### Trees whose parents are set -/

/-- The parents of the tree are as they would be set. -/
def Relinked (tree : Tree) : Prop := tree.relinked = tree

namespace Relinked

theorem relinked : tree.relinked.Relinked := relinked_relinked

theorem parent?_eq (h : tree.Relinked) :
    tree.parent? id = if id.index < tree.size then tree.lastLink? tree.linkOrder id else none := by
  have hnode := relinked_node? tree id
  rw [h] at hnode
  by_cases hlt : id.index < tree.size
  · obtain ⟨node, hsome, -⟩ := node_of_lt hlt
    rw [hsome] at hnode
    simp only [parent?, hsome, if_pos hlt, Option.bind_some]
    exact congrArg Node.parent (Option.some.inj hnode)
  · rw [if_neg hlt, parent?_of_size_le (Nat.le_of_not_lt hlt)]

/-- **A single link.** A node that just one reachable node links has it as its parent. -/
theorem parent?_of_only_link (h : tree.Relinked) (hlt : c.index < tree.size)
    (hp : tree.Reaches tree.root p) (hc : c ∈ tree.parts p)
    (honly : ∀ q, tree.Reaches tree.root q → c ∈ tree.parts q → q = p) :
    tree.parent? c = some p := by
  -- whichever of the linking nodes comes last, it is the one there is
  have hall : ∀ q ∈ tree.linkOrder.filter fun q => c ∈ tree.parts q, q = p := by
    intro q hq
    simp only [List.mem_filter, decide_eq_true_eq] at hq
    exact honly q (mem_linkOrder.1 hq.1) hq.2
  have hmem : p ∈ tree.linkOrder.filter fun q => c ∈ tree.parts q := by
    simpa using ⟨mem_linkOrder.2 hp, hc⟩
  rw [h.parent?_eq, if_pos hlt, lastLink?, List.getLast?_eq_some_getLast (List.ne_nil_of_mem hmem)]
  exact congrArg some (hall _ (List.getLast_mem _))

/-- A node that no reachable node links has no parent. -/
theorem parent?_of_no_link (h : tree.Relinked)
    (hno : ∀ q, tree.Reaches tree.root q → c ∉ tree.parts q) : tree.parent? c = none := by
  have hnil : (tree.linkOrder.filter fun q => c ∈ tree.parts q) = [] := by
    simpa using fun q hq => hno q (mem_linkOrder.1 hq)
  rw [h.parent?_eq, lastLink?, hnil]
  simp

end Relinked

end Tree

end LoopToStream
