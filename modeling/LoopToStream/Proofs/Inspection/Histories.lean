import LoopToStream.Proofs.Pipeline.Installing
import LoopToStream.Proofs.Tree.Parented

/-!
# What a tree has been through

A tree is built from layers and then changed by one edit after the other. Neither has to keep the
links a tree: a node may come to be linked from several places, or from none. What is kept up all
the same is that the parents describe the links (`Tree.Described`). Setting the parents anew brings
it about, each operation does that at its end (`Described.applyOp`), and nodes that are only staged
are linked from nowhere (`Described.atop`).

Where no way down returns to a node, the way up can be relied on: `Arises.parents_describe_links`
says so of every tree that comes about (`Tree.Arises`).
-/

namespace LoopToStream

variable {tree now next result : Tree} {edit : Edit} {op : EditOp} {id p : NodeId}

namespace Tree

/-! ### Parents that describe the links -/

/-- **The parents describe the links.** No link leads out of the table, the parent of a node links
it and hangs in the tree, and what has no parent is linked by nothing that hangs in the tree. -/
structure Described (tree : Tree) : Prop extends tree.Closed, tree.Parented where
  known := fun _ hn => toClosed.lt_size hn

/-- Setting the parents anew makes them describe the links. -/
theorem Closed.described_relinked (h : tree.Closed) : tree.relinked.Described where
  toClosed := h.relinked
  parentSet _ hid := Relinked.relinked.parentSet hid

namespace Described

/-- **One operation** leaves parents that describe the links. -/
theorem applyOp (h : now.Described) (hanchor : op.anchor.index < now.size)
    (hplaced : ∀ id, op.placed? = some id → id.index < now.size)
    (happly : now.applyOp op = .ok next) :
    next.Described ∧ next.size = now.size := by
  have hparent : ∀ up, now.parent? op.anchor = some up → up.index < now.size := fun up hup =>
    h.lt_size ((h.parentSet _ hanchor).links up hup).1
  rcases applyOp_cases hanchor hparent happly with ⟨-, rfl⟩ | ⟨up, hup, rfl⟩
  · -- at most the top is another one
    have hclosed : (now.withTop op).Closed := by
      cases op with
      | replace old new => exact ⟨hplaced new rfl, h.links_known⟩
      | remove stmt => exact h.toClosed
      | insertBefore anchor stmt => exact h.toClosed
    exact ⟨hclosed.described_relinked, by simp⟩
  · -- one list of links changes, and the new link in it is one that has been checked
    have hclosed : (now.modifyKind up op.change).Closed := by
      refine h.toClosed.modifyKind fun kind hkind c hc => ?_
      rcases EditOp.mem_or_placed_of_mem_change hc with hold | hnew
      · exact h.links_known up kind hkind c hold
      · exact hplaced c hnew
    exact ⟨hclosed.described_relinked, by simp⟩

/-- **All operations**, one after the other. By induction on them. -/
theorem foldlM_applyOp {ops : List EditOp} (h : now.Described)
    (hanchors : ∀ op ∈ ops, op.anchor.index < now.size)
    (hplaced : ∀ op ∈ ops, ∀ id, op.placed? = some id → id.index < now.size)
    (hfold : ops.foldlM Tree.applyOp now = .ok next) : next.Described := by
  induction ops generalizing now with
  | nil =>
    cases hfold
    exact h
  | cons op ops ih =>
    rw [List.foldlM_cons] at hfold
    obtain ⟨mid, hmid, hrest⟩ := bind_eq_ok.1 hfold
    obtain ⟨hdescribed, hsize⟩ := h.applyOp (hanchors op (by simp)) (hplaced op (by simp)) hmid
    -- the operations are checked against a table whose size stays the same
    refine ih hdescribed (fun other hother => ?_) (fun other hother => ?_) hrest
    · rw [hsize]
      exact hanchors other (by simp [hother])
    · rw [hsize]
      exact hplaced other (by simp [hother])

end Described

/-! ### Edits -/

/-- **Staging** changes nothing about the links of the tree, and the staged nodes are linked from
nowhere in it. -/
theorem Described.atop (h : tree.Described) (hfresh : edit.Fresh)
    (hclosed : (edit.atop tree).Closed) : (edit.atop tree).Described where
  toClosed := hclosed
  parentSet := (h.toParented.atop hfresh).parentSet

/-- **Edits keep the parents true to the links**, whatever nodes they link in several places or cut
off, and edits without operations as well. -/
theorem Described.commit (h : tree.Described) (hfresh : edit.Fresh)
    (hcommit : tree.commit edit = .ok result) : result.Described := by
  obtain ⟨hsize, hlinks, hops, changed, hchanged, rfl⟩ := Edit.of_commit hcommit
  have hlimit : (edit.atop tree).size = edit.limit := by
    simp [Edit.atop, size, Edit.limit, hsize]
  -- the layers that are staged link what the check of the links has found
  have hclosed : (edit.atop tree).Closed :=
    Edit.closed_atop h.toClosed fun id kind hle hkind c hc => by
    obtain ⟨node, hnode, rfl⟩ := Edit.mem_staged_of_kind? hle hkind
    exact hlimit ▸ Edit.lt_limit_of_checkLinks hlinks c (List.mem_flatMap.2 ⟨node, hnode, hc⟩)
  have hpassed := Edit.passed_of_checkOps hops
  have hdescribed : changed.Described := by
    refine (h.atop hfresh hclosed).foldlM_applyOp (fun op hop => ?_) (fun op hop => ?_) hchanged
    · exact (hsize ▸ (hpassed op hop).anchor_known).trans_le (edit.grows_atop tree).size_le
    · exact hlimit ▸ (hpassed op hop).placed_known
  exact {
    top_known := hdescribed.top_known
    links_known := hdescribed.links_known
    parentSet := (h.toParented.commit hfresh hcommit).parentSet }

/-! ### Building -/

/-- Layers that link layers are put together. -/
theorem exists_ofKinds (scope : Scope) (vars : Array Variable) {kinds : List (Kind NodeId)}
    {root : NodeId} (top_known : root.index < kinds.length)
    (links_known : ∀ kind ∈ kinds, ∀ c ∈ kind.children, c.index < kinds.length) :
    ∃ tree, ofKinds scope vars kinds root = .ok tree ∧ tree.Described := by
  let layers : Tree :=
    ⟨(kinds.mapIdx fun i kind => ⟨kind, none, placeOf i⟩).toArray, vars, root, scope, 0⟩
  have hsize : layers.size = kinds.length := by simp [layers, size]
  -- each layer of the table comes from the list
  have hclosed : layers.Closed := by
    refine ⟨hsize ▸ top_known, fun id kind hkind c hc => hsize ▸ ?_⟩
    have hmem : kind ∈ kinds := by
      obtain ⟨node, hnode, rfl⟩ := kind?_eq_some.1 hkind
      simp only [layers, node?, List.getElem?_toArray, List.getElem?_mapIdx] at hnode
      obtain ⟨layer, hlayer, rfl⟩ := Option.map_eq_some_iff.1 hnode
      exact List.mem_of_getElem? hlayer
    exact links_known kind hmem c hc
  exact ⟨layers.relinked, hclosed.relink_eq, hclosed.described_relinked⟩

/-! ### Histories -/

/-- **The trees that come about.** They are built from layers with links to each other, and changed
by edits after that, whether an edit is let through or not. -/
inductive Arises : Tree → Prop where
  | built {scope : Scope} {vars : Array Variable} {kinds : List (Kind NodeId)} {root : NodeId}
      {tree : Tree} (top_known : root.index < kinds.length)
      (links_known : ∀ kind ∈ kinds, ∀ c ∈ kind.children, c.index < kinds.length)
      (done : ofKinds scope vars kinds root = .ok tree) : Arises tree
  | committed {tree next : Tree} {edit : Edit} (before : Arises tree) (fresh : edit.Fresh)
      (done : TreeChange.commit edit tree = .ok () next) : Arises next
  | refused {tree next : Tree} {edit : Edit} {refusal : Refusal Failure} (before : Arises tree)
      (failed : TreeChange.commit edit tree = .error refusal next) : Arises next

/-- **Whatever a tree has been through**, its parents describe its links. -/
theorem Arises.described (h : tree.Arises) : tree.Described := by
  induction h with
  | built top_known links_known done =>
    obtain ⟨tree, hbuilt, hdescribed⟩ := exists_ofKinds _ _ top_known links_known
    exact Except.ok.inj (done.symm.trans hbuilt) ▸ hdescribed
  | committed before fresh done ih => exact ih.commit fresh (TreeChange.commit_eq_ok done)
  | refused before failed ih => exact TreeChange.commit_eq_error failed ▸ ih

/-! ### The way up -/

/-- **Parents describe links.** In every tree that comes about and in which no way down returns, a
node has a parent just if it hangs in the tree and is not the top; the parent hangs in the tree as
well and links the node. So every way up ends, and asking whether a node hangs in the tree is
answered by what can be reached from the top. -/
theorem Arises.parents_describe_links (h : tree.Arises) (hacyclic : tree.Acyclic) :
    (∀ id, (∃ p, tree.parent? id = some p) ↔ tree.Attached id ∧ id ≠ tree.root) ∧
      (∀ id p, tree.parent? id = some p → tree.Attached p ∧ id ∈ tree.parts p) ∧
      (∀ id, ¬ tree.Attached id → tree.parent? id = none) ∧
      (WellFounded fun up low => tree.parent? low = some up) ∧
      ∀ id, id.index < tree.size →
        ∃ answer, tree.isAttached id = .ok answer ∧ (answer = true ↔ tree.Attached id) := by
  have hdescribed := h.described
  refine ⟨fun id => hdescribed.exists_parent?_iff hacyclic, (hdescribed.upward hacyclic).links,
    fun id hno => ?_, hdescribed.wellFounded_parent hacyclic,
    fun id hid => hdescribed.isAttached_eq hacyclic hid⟩
  rw [Option.eq_none_iff_forall_ne_some]
  exact fun p hp => hno ((hdescribed.exists_parent?_iff hacyclic).1 ⟨p, hp⟩).1

/-- Where links lead to smaller ids, no way down returns. -/
theorem Acyclic.of_descending (h : ∀ i < tree.size, ∀ c ∈ tree.parts ⟨i⟩, c.index < i) :
    tree.Acyclic := by
  have hstep : ∀ {a n}, tree.StrictlyReaches a n → n.index < a.index := by
    intro a n hreach
    induction hreach with
    | single hc => exact h _ (lt_size_of_mem_parts hc) _ hc
    | tail _ hc ih => exact (h _ (lt_size_of_mem_parts hc) _ hc).trans ih
  exact fun n _ hcycle => Nat.lt_irrefl _ (hstep hcycle)

/-- The layers of the statement `f(this, this);`, whose arguments are one node, and of a statement
that nothing links. -/
def sharedArgument : List (Kind NodeId) :=
  [.expr .thisRef, .expr (.call ⟨none, "f", [⟨0⟩, ⟨0⟩], none⟩), .stmt (.expr ⟨1⟩), .stmt .empty]

/-- The edit that puts the statement into a block, which becomes the top. -/
def wrapped : Edit := ⟨4, 0, #[⟨.stmt (.block [⟨2⟩]), none, placeOf 4⟩], [.replace ⟨2⟩ ⟨4⟩]⟩

/-- The shared argument has a parent in the end. The block has none, and neither has the statement
that nothing links, which does not hang in the tree. -/
theorem parents_sharedArgument :
    ∃ tree next, ofKinds .unknown #[] sharedArgument ⟨2⟩ = .ok tree ∧
      TreeChange.commit wrapped tree = .ok () next ∧ next.root = ⟨4⟩ ∧
      (∃ p, next.parent? ⟨0⟩ = some p) ∧ next.parent? ⟨4⟩ = none ∧ next.parent? ⟨3⟩ = none ∧
      next.isAttached ⟨3⟩ = .ok false := by
  obtain ⟨tree, hbuilt, next, hdone, hroot, hsize, hdescending, hin, hout⟩ :
      ∃ tree, ofKinds .unknown #[] sharedArgument ⟨2⟩ = .ok tree ∧
        ∃ next, TreeChange.commit wrapped tree = .ok () next ∧ next.root = ⟨4⟩ ∧ next.size = 5 ∧
          (∀ i < next.size, ∀ c ∈ next.parts ⟨i⟩, c.index < i) ∧
          ⟨0⟩ ∈ next.preorder next.root ∧ ⟨3⟩ ∉ next.preorder next.root :=
    ⟨_, by cbv, _, by cbv, by cbv, by cbv, by decide, by decide, by decide⟩
  -- the tree has come about by building it and one commit
  have harises : next.Arises :=
    .committed (.built (by decide) (by decide) hbuilt) (by simp [Edit.Fresh, wrapped]) hdone
  obtain ⟨hparent, -, hnone, -, hattached⟩ :=
    harises.parents_describe_links (.of_descending hdescending)
  have hcut : ¬ next.Attached ⟨3⟩ := fun h => hout (mem_preorder_iff.2 h)
  refine ⟨tree, next, hbuilt, hdone, hroot,
    (hparent ⟨0⟩).2 ⟨mem_preorder_iff.1 hin, by simp [hroot]⟩, ?_, hnone ⟨3⟩ hcut, ?_⟩
  · -- a parent would make the top a part of something
    rw [Option.eq_none_iff_forall_ne_some]
    exact fun p hp => ((hparent ⟨4⟩).1 ⟨p, hp⟩).2 hroot.symm
  · -- and what has been cut off does not hang in the tree
    obtain ⟨answer, hanswer, hiff⟩ := hattached ⟨3⟩ (by simp [hsize])
    rw [hanswer, Bool.eq_false_iff.2 fun h => hcut (hiff.1 h)]

end Tree

end LoopToStream
