import LoopToStream.Proofs.Tree.Course

/-!
# Trees whose parents are set

What `Tree.relink` brings about, on every table of nodes (`Tree.Parented`): all that hangs in the
tree is in the table, and the parents are read off its links. A node may be linked from several
places, and the links of what does not hang in the tree may lead anywhere.

Edits keep this up, whatever they do (`Parented.commit`). Where no way down returns to a node, the
way up can be relied on: it ends at the top just if the node hangs in the tree
(`Parented.isAttached_eq`).
-/

namespace LoopToStream

variable {tree now next result : Tree} {edit : Edit} {op : EditOp} {ops : List EditOp}
    {id p : NodeId}

namespace Tree

/-- What is looked up one by one is there. -/
theorem lt_size_of_allFound {ids found : List NodeId} (h : tree.allFound ids = .ok found) :
    ∀ n ∈ ids, n.index < tree.size := by
  obtain ⟨⟨⟩, hall, -⟩ := bind_eq_ok.1 h
  rw [List.forM_eq_forM] at hall
  clear h
  induction ids with
  | nil => simp
  | cons id ids ih =>
    rw [List.forM_cons] at hall
    obtain ⟨⟨⟩, hid, hrest⟩ := bind_eq_ok.1 hall
    have hlt : id.index < tree.size := by
      by_contra hno
      -- a lookup behind the table is lost
      have hnone : tree.nodes[id.index]? = none := Array.getElem?_eq_none (Nat.le_of_not_lt hno)
      rw [node, node?, hnone] at hid
      cases hid
    exact List.forall_mem_cons.2 ⟨hlt, ih hrest⟩

/-- **The parents are set.** What hangs in the tree is in the table, the parent of a node links it
and hangs in the tree, and what has no parent is linked by nothing that hangs in the tree. -/
structure Parented (tree : Tree) : Prop where
  known : ∀ n, tree.Attached n → n.index < tree.size
  parentSet : ∀ id, id.index < tree.size → tree.ParentSet id

/-- Setting the parents anew sets them. -/
theorem parented_of_relink (h : tree.relink = .ok next) : next.Parented := by
  obtain rfl := eq_relinked_of_relink h
  obtain ⟨order, horder, -⟩ := bind_eq_ok.1 h
  refine ⟨fun n hn => ?_, fun _ hid => Relinked.relinked.parentSet hid⟩
  rw [relinked_size]
  refine lt_size_of_allFound horder n ?_
  rw [← relinked_linkOrder]
  exact mem_linkOrder.2 hn

end Tree

/-! ### Edits -/

namespace Edit

/-- The staged nodes have no parents yet. -/
def Fresh (edit : Edit) : Prop := ∀ node ∈ edit.staged, node.parent = none

theorem fresh_start (tree : Tree) : (start tree).Fresh := by simp [Fresh, start]

theorem Fresh.add (h : edit.Fresh) (kind : Kind NodeId) (place : Span) :
    (edit.add kind place).2.Fresh := by
  intro node hnode
  rcases Array.mem_push.1 hnode with hnode | rfl
  · exact h node hnode
  · rfl

theorem Fresh.addOp (h : edit.Fresh) (op : EditOp) : (edit.addOp op).Fresh := h

theorem Fresh.parent?_atop (h : edit.Fresh) (hle : tree.size ≤ id.index) :
    (edit.atop tree).parent? id = none := by
  rw [Tree.parent?, Option.bind_eq_none_iff]
  intro node hnode
  rw [Tree.node?, atop, Array.getElem?_append_right hle] at hnode
  exact h node (Array.mem_of_getElem? hnode)

end Edit

namespace Tree

namespace Parented

/-- The parent of a node links it and hangs in the tree. -/
theorem links (h : tree.Parented) (hp : tree.parent? id = some p) :
    tree.Attached p ∧ id ∈ tree.parts p := by
  refine (h.parentSet id ?_).links p hp
  by_contra hid
  rw [parent?_of_size_le (Nat.le_of_not_lt hid)] at hp
  cases hp

theorem parentsKnown (h : tree.Parented) : tree.ParentsKnown :=
  fun _ p hp => h.known p (h.links hp).1

/-- A part of what hangs in the tree is in the table. -/
theorem lt_size_of_mem (h : tree.Parented) (hp : tree.Attached p) (hid : id ∈ tree.parts p) :
    id.index < tree.size := h.known id (hp.of_mem hid)

/-- **Staging** sets no parents, and none is needed: nothing in the tree links a staged node. -/
theorem atop (h : tree.Parented) (hfresh : edit.Fresh) : (edit.atop tree).Parented := by
  have hgrows := edit.grows_atop tree
  -- the same nodes hang in the tree, with the same links
  have hattached : ∀ p, (edit.atop tree).Attached p ↔ tree.Attached p := fun p =>
    attached_atop_iff_of_known h.known
  have hparts : ∀ p, tree.Attached p → (edit.atop tree).parts p = tree.parts p := fun p hp => by
    rw [parts, parts, hgrows.kind?_eq p (h.known p hp)]
  refine ⟨fun n hn => (h.known n ((hattached n).1 hn)).trans_le hgrows.size_le, fun id _ => ?_⟩
  by_cases hid : id.index < tree.size
  · -- a node of the tree has the parent that it had
    have hparent : (edit.atop tree).parent? id = tree.parent? id := by
      rw [parent?, parent?, Edit.atop_node?_of_lt hid]
    have hset := h.parentSet id hid
    refine ⟨fun p hp => ?_, fun hno p hp => ?_⟩
    · obtain ⟨hup, hmem⟩ := hset.links p (hparent ▸ hp)
      exact ⟨(hattached p).2 hup, hparts p hup ▸ hmem⟩
    · have hp := (hattached p).1 hp
      rw [hparts p hp]
      exact hset.unlinked (hparent ▸ hno) p hp
  · have hle := Nat.le_of_not_lt hid
    refine ⟨fun p hp => ?_, fun _ p hp hmem => ?_⟩
    · rw [hfresh.parent?_atop hle] at hp
      cases hp
    · -- the links of the tree lead to nodes of the tree
      have hp := (hattached p).1 hp
      rw [hparts p hp] at hmem
      exact hid (h.lt_size_of_mem hp hmem)

/-- **All operations.** Each of them sets the parents at its end. -/
theorem foldlM_applyOp (h : now.Parented) (hfold : ops.foldlM Tree.applyOp now = .ok next) :
    next.Parented := by
  induction ops generalizing now with
  | nil =>
    cases hfold
    exact h
  | cons op ops ih =>
    rw [List.foldlM_cons] at hfold
    obtain ⟨mid, hmid, hrest⟩ := bind_eq_ok.1 hfold
    -- what the operation has changed does not matter, since it ends with setting all parents
    obtain ⟨changed, -, hrelink⟩ := bind_eq_ok.1 hmid
    exact ih (parented_of_relink hrelink) hrest

/-- **Edits keep the parents set**, whatever they do. -/
theorem commit (h : tree.Parented) (hfresh : edit.Fresh) (hcommit : tree.commit edit = .ok result) :
    result.Parented := by
  obtain ⟨-, -, -, changed, hchanged, rfl⟩ := Edit.of_commit hcommit
  have hset := (h.atop hfresh).foldlM_applyOp hchanged
  -- the revision has nothing to do with it
  exact ⟨hset.known,
    fun id hid => ⟨(hset.parentSet id hid).links, (hset.parentSet id hid).unlinked⟩⟩

/-! ### The way up -/

section

variable (h : tree.Parented) (hacyclic : tree.Acyclic)
include h hacyclic

theorem upward : tree.Upward where
  known := h.known
  acyclic := hacyclic
  links _ _ hp := h.links hp

/-- What hangs in the tree has a parent, except for the top. -/
theorem exists_parent?_iff :
    (∃ p, tree.parent? id = some p) ↔ tree.Attached id ∧ id ≠ tree.root := by
  constructor
  · rintro ⟨p, hp⟩
    obtain ⟨hup, hmem⟩ := (h.upward hacyclic).links id p hp
    refine ⟨hup.of_mem hmem, ?_⟩
    rintro rfl
    -- the top would be below itself
    exact hacyclic _ attached_root (strictlyReaches_iff_last.2 ⟨p, hup, hmem⟩)
  · rintro ⟨hid, hne⟩
    cases hparent : tree.parent? id with
    | none => exact absurd ((h.parentSet id (h.known id hid)).eq_root hid hparent) hne
    | some p => exact ⟨p, rfl⟩

/-- No way up goes on forever: with each step, fewer nodes are above. -/
theorem wellFounded_parent : WellFounded fun up low => tree.parent? low = some up := by
  have hupward := h.upward hacyclic
  refine Subrelation.wf (fun {up low} hp => ?_) (measure tree.height).wf
  obtain ⟨hup, hmem⟩ := hupward.links low up hp
  exact hupward.height_lt hup hmem

/-- The way up from a node that hangs in the tree comes through the top. By induction along it. -/
theorem climbsTo_root (hid : tree.Attached id) (hne : id ≠ tree.root) :
    tree.climbsTo tree.root id = .ok true := by
  induction id using (h.wellFounded_parent hacyclic).induction with
  | _ id ih =>
    obtain ⟨p, hp⟩ := (h.exists_parent?_iff hacyclic).2 ⟨hid, hne⟩
    rw [climbsTo, (h.upward hacyclic).climb_eq (h.known id hid), hp]
    -- the way up ends at the top, or goes on from a parent that is no top
    by_cases htop : p = tree.root
    · simp [htop]
    · have hup := ((h.upward hacyclic).links id p hp).1
      have hrest := ih p hp hup htop
      rw [climbsTo] at hrest
      simpa [htop] using hrest

/-- **Asking whether a node hangs in the tree** has the answer that the links give. -/
theorem isAttached_eq (hid : id.index < tree.size) :
    ∃ answer, tree.isAttached id = .ok answer ∧ (answer = true ↔ tree.Attached id) := by
  rw [isAttached, isAncestor]
  by_cases hroot : id = tree.root
  · exact ⟨true, by simp [hroot], by simpa [hroot] using attached_root⟩
  rw [if_neg hroot]
  by_cases hattached : tree.Attached id
  · exact ⟨true, h.climbsTo_root hacyclic hattached hroot, by simpa using hattached⟩
  · -- what does not hang in the tree has no parent to climb to
    have hparent : tree.parent? id = none := by
      rw [Option.eq_none_iff_forall_ne_some]
      exact fun p hp => hattached ((h.exists_parent?_iff hacyclic).1 ⟨p, hp⟩).1
    refine ⟨false, ?_, by simpa using hattached⟩
    rw [climbsTo, (h.upward hacyclic).climb_eq hid, hparent]
    rfl

/-- The question is answered with yes just for what hangs in the tree. -/
theorem isAttached_eq_true (hid : id.index < tree.size) :
    tree.isAttached id = .ok true ↔ tree.Attached id := by
  obtain ⟨answer, hanswer, hiff⟩ := h.isAttached_eq hacyclic hid
  rw [hanswer, ← hiff]
  exact ⟨fun heq => Except.ok.inj heq, congrArg Except.ok⟩

end

end Parented

end Tree

end LoopToStream
