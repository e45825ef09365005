import LoopToStream.Proofs.Tree.Ancestors
import LoopToStream.Proofs.Tree.Staged

/-!
# Edits that are not refused

A commit checks the links of the staged nodes and then the operations one by one. Both checks
pass for edits that are made from a well-formed tree in the way that pipelines are:

* `Tree.Built.checkLinks_eq` — all staged nodes hang below one of them, and what they keep of
  the tree is in separate subtrees. Then each node of the tree is linked at most once, since the
  nodes that hang below the top of the staged code are that node and the parts of all of them
  (`Tree.Built.perm_parts`);
* `Edit.checkOps_cons` — an operation is let through on a node that hangs in the tree and has
  not lost its place.

What has been let through has passed (`Edit.of_commit`, `Edit.passed_of_checkOps`), on any tree.
-/

namespace LoopToStream

open scoped List

variable {tree : Tree} {edit : Edit} {kept : List NodeId} {top : NodeId}

/-! ### The links of staged nodes -/

/-- Links that lead somewhere, each to another node, are let through. -/
theorem Edit.checkLinks_eq_ok {links adopted : List NodeId}
    (hknown : ∀ c ∈ links, c.index < edit.limit) (hnodup : links.Nodup)
    (hfresh : ∀ c ∈ links, c ∉ adopted) : edit.checkLinks adopted links = .ok () := by
  induction links generalizing adopted with
  | nil => rfl
  | cons c rest ih =>
    obtain ⟨hc, hnodup⟩ := List.nodup_cons.1 hnodup
    have hlt := hknown c (by simp)
    have hrest : ∀ d ∈ rest, d.index < edit.limit := fun d hd => hknown d (by simp [hd])
    rw [checkLinks, if_neg (Nat.not_le.2 hlt)]
    -- a link to a staged node leaves the list of what is adopted as it is, one to the tree adds to
    -- it
    split
    · exact ih hrest hnodup fun d hd => hfresh d (by simp [hd])
    · rw [if_neg (by simpa using hfresh c (by simp))]
      refine ih hrest hnodup fun d hd hmem => ?_
      rcases List.mem_cons.1 hmem with rfl | hmem
      · exact hc hd
      · exact hfresh d (by simp [hd]) hmem

/-- The parts of the staged nodes are those of the ids that are new. -/
theorem Edit.Sound.children_staged (h : edit.Sound tree) :
    (edit.staged.toList.flatMap fun node => node.kind.children) =
      (idsFrom tree.size edit.limit).flatMap (edit.atop tree).parts := by
  have hlen : edit.limit - tree.size = edit.staged.toList.length := by
    simp [limit, h.baseSize_eq]
  rw [idsFrom, hlen, List.flatMap_map]
  -- one staged node after the other
  have hparts : ∀ i, (edit.atop tree).parts ⟨tree.size + i⟩ =
      (edit.staged.toList[i]?.map fun node => node.kind.children).getD [] := by
    intro i
    have hnode : (edit.atop tree).node? ⟨tree.size + i⟩ = edit.staged[i]? := by
      simp only [atop, Tree.node?, Tree.size]
      rw [Array.getElem?_append_right (Nat.le_add_right _ _), Nat.add_sub_cancel_left]
    simp [Tree.parts, Tree.kind?, hnode, Option.map_map, Function.comp_def]
  -- ids count on from the base, one for each node
  have hlist : ∀ (l : List Node) (f : Nat → List NodeId) (base : Nat),
      (∀ i, f (base + i) = (l[i]?.map fun node => node.kind.children).getD []) →
        (l.flatMap fun node => node.kind.children) = (List.range' base l.length).flatMap f := by
    intro l
    induction l with
    | nil => simp
    | cons node l ih =>
      intro f base hf
      rw [List.flatMap_cons, List.length_cons, List.range'_succ, List.flatMap_cons,
        ih f (base + 1) fun i => by
          rw [show base + 1 + i = base + (i + 1) by omega, hf]
          simp]
      have hhead := hf 0
      simp only [Nat.add_zero, List.getElem?_cons_zero, Option.map_some, Option.getD_some] at hhead
      rw [hhead]
  exact hlist _ _ _ hparts

/-- The nodes of some subtrees are their tops and the parts of all of them. -/
theorem Tree.flatMap_preorder_perm {ids : List NodeId} (h : ∀ c ∈ ids, tree.Grounded c) :
    ids.flatMap tree.preorder ~ ids ++ (ids.flatMap tree.preorder).flatMap tree.parts := by
  calc ids.flatMap tree.preorder
      _ ~ ids.flatMap fun c => c :: (tree.preorder c).flatMap tree.parts :=
        List.Perm.flatMap_left _ fun c hc => (h c hc).preorder_perm
      _ ~ ids.map id ++ ids.flatMap (fun c => (tree.preorder c).flatMap tree.parts) :=
        (List.map_append_flatMap_perm _ _ _).symm
      _ ~ ids ++ (ids.flatMap tree.preorder).flatMap tree.parts := by
        simp [List.flatMap_assoc]

/-- **What staged nodes link.** If all of them hang below `top`, they link the subtrees that are
kept and each other, except for `top`. -/
theorem Tree.Built.perm_parts
    (h : Tree.Built tree (edit.atop tree) kept tree.size edit.limit [top])
    (hkept : ∀ c ∈ kept, tree.Grounded c) :
    kept ++ idsFrom tree.size edit.limit ~
      top :: (idsFrom tree.size edit.limit).flatMap (edit.atop tree).parts := by
  have hgrow := edit.grows_atop tree
  have hlisted := h.listed
  rw [List.flatMap_singleton] at hlisted
  -- the parts of what is kept are those that it has in the tree
  have hparts : (kept.flatMap tree.preorder).flatMap (edit.atop tree).parts =
      (kept.flatMap tree.preorder).flatMap tree.parts := by
    refine List.flatMap_congr fun n hn => ?_
    obtain ⟨c, hc, hcn⟩ := List.mem_flatMap.1 hn
    have hg := (hkept c hc).of_reaches (mem_preorder_iff.1 hcn)
    exact (hgrow.sameBelow hg).parts_eq
  have hall := hlisted.symm.trans (h.grounded_single.preorder_perm.trans
    (List.Perm.cons top (hlisted.flatMap_right _)))
  rw [List.flatMap_append, hparts] at hall
  -- the inner nodes of what is kept stand on both sides
  refine (List.perm_append_left_iff ((kept.flatMap tree.preorder).flatMap tree.parts)).1 ?_
  calc (kept.flatMap tree.preorder).flatMap tree.parts ++ (kept ++ idsFrom tree.size edit.limit)
      _ ~ (kept ++ (kept.flatMap tree.preorder).flatMap tree.parts) ++
          idsFrom tree.size edit.limit := by
        rw [← List.append_assoc]
        exact List.Perm.append_right _ List.perm_append_comm
      _ ~ kept.flatMap tree.preorder ++ idsFrom tree.size edit.limit :=
        List.Perm.append_right _ (flatMap_preorder_perm hkept).symm
      _ ~ _ := hall
      _ ~ _ := List.perm_middle.symm

/-- Staged code that keeps separate subtrees of the tree is let through. -/
theorem Tree.Built.checkLinks_eq (hs : edit.Sound tree)
    (h : Tree.Built tree (edit.atop tree) kept tree.size edit.limit [top])
    (hkept : ∀ c ∈ kept, tree.Grounded c) (hnodup : (kept.flatMap tree.preorder).Nodup) :
    edit.checkLinks [] (edit.staged.toList.flatMap fun node => node.kind.children) = .ok () := by
  have hperm := h.perm_parts hkept
  have hlt : ∀ c ∈ kept, c.index < tree.size := fun c hc => (hkept c hc).lt_size
  have hle := hs.le_limit
  have hkeptNodup : kept.Nodup :=
    (List.nodup_append'.1 ((flatMap_preorder_perm hkept).nodup_iff.1 hnodup)).1
  -- kept nodes and staged ones make up what is linked, together with the top
  have hboth : (kept ++ idsFrom tree.size edit.limit).Nodup := by
    refine List.nodup_append'.2 ⟨hkeptNodup, nodup_idsFrom _ _, fun c hc hnew => ?_⟩
    exact Nat.not_lt.2 (mem_idsFrom.1 hnew).1 (hlt c hc)
  rw [hs.children_staged]
  refine Edit.checkLinks_eq_ok (fun c hc => ?_) ?_ (by simp)
  · have hmem := hperm.symm.subset (List.mem_cons_of_mem _ hc)
    rcases List.mem_append.1 hmem with hmem | hmem
    · exact (hlt c hmem).trans_le hle
    · exact (mem_idsFrom.1 hmem).2
  · exact (List.nodup_cons.1 (hperm.nodup_iff.1 hboth)).2

/-! ### Operations -/

/-- What an operation has been asked. -/
structure EditOp.Passed (tree : Tree) (edit : Edit) (op : EditOp) : Prop where
  anchor_known : op.anchor.index < edit.baseSize
  placed_known : ∀ id, op.placed? = some id → id.index < edit.limit
  attached : tree.isAttached op.anchor = .ok true
  in_block : op.needsBlock = true → tree.isInBlock op.anchor = .ok true

namespace Edit

/-- An operation that is let through has passed, and the others are looked at next. -/
theorem passed_of_checkOps_cons {op : EditOp} {rest : List EditOp} {consumed : List NodeId}
    (h : edit.checkOps tree consumed (op :: rest) = .ok ()) :
    op.Passed tree edit ∧ op.anchor ∉ consumed ∧
      edit.checkOps tree (if op.consumesAnchor then op.anchor :: consumed else consumed) rest =
        .ok () := by
  -- all tests of one operation, each of which would have refused it
  have hall : op.anchor.index < edit.baseSize ∧
      (∀ id, op.placed? = some id → id.index < edit.limit) ∧ op.anchor ∉ consumed ∧
      tree.isAttached op.anchor = .ok true ∧
      (op.needsBlock = true → tree.isInBlock op.anchor = .ok true) ∧
      edit.checkOps tree (if op.consumesAnchor then op.anchor :: consumed else consumed) rest =
        .ok () := by
    rw [checkOps] at h
    cases hid : op.placed? <;> cases hneeds : op.needsBlock <;>
      simp [EditFault.refuse, hid, hneeds, ite_refuse_eq_ok, bind_eq_ok,
        Attempt.liftM_eq_ok] at h <;>
      simp_all
  obtain ⟨hlt, hplaced, hfresh, hattached, hblock, hrest⟩ := hall
  exact ⟨⟨hlt, hplaced, hattached, hblock⟩, hfresh, hrest⟩

/-- **Operations that are let through have passed.** By induction on the operations. -/
theorem passed_of_checkOps {ops : List EditOp} {consumed : List NodeId}
    (h : edit.checkOps tree consumed ops = .ok ()) : ∀ op ∈ ops, op.Passed tree edit := by
  induction ops generalizing consumed with
  | nil => simp
  | cons op rest ih =>
    obtain ⟨hpassed, -, hrest⟩ := passed_of_checkOps_cons h
    intro other hother
    rcases List.mem_cons.1 hother with rfl | hother
    · exact hpassed
    · exact ih hrest other hother

/-- **What a commit that succeeds has done**: it has checked the links and the operations and
carried the operations out. -/
theorem of_commit {result : Tree} (h : tree.commit edit = .ok result) :
    edit.baseSize = tree.size ∧
      edit.checkLinks [] (edit.staged.toList.flatMap fun node => node.kind.children) = .ok () ∧
      edit.checkOps tree [] edit.ops = .ok () ∧
      ∃ changed, edit.ops.foldlM Tree.applyOp (edit.atop tree) = .ok changed ∧
        result = { changed with revision := changed.revision + 1 } := by
  rw [Tree.commit] at h
  obtain ⟨⟨⟩, hcheck, hcarry⟩ := bind_eq_ok.1 h
  rw [check] at hcheck
  dsimp only at hcheck
  -- an edit for another revision or another table is refused before anything is checked
  split at hcheck
  · simp at hcheck
  · next hfresh =>
    obtain ⟨⟨⟩, hlinks, hops⟩ := bind_eq_ok.1 hcheck
    obtain ⟨changed, hchanged, hresult⟩ := bind_eq_ok.1 (Attempt.liftM_eq_ok.1 hcarry)
    exact ⟨not_not.1 (not_or.1 hfresh).2, hlinks, hops, changed, hchanged,
      (Except.ok.inj hresult).symm⟩

end Edit

/-- An operation that can be carried out, as the tree is before the edit. -/
structure EditOp.Allowed (tree : Tree) (edit : Edit) (op : EditOp) : Prop where
  attached : tree.Attached op.anchor
  placed_known : ∀ id, op.placed? = some id → id.index < edit.limit
  in_block : op.needsBlock = true → (tree.parent? op.anchor).any tree.isBlock = true

/-- An operation is let through where its anchor has a place. -/
theorem Edit.checkOps_cons (hwf : tree.WellFormed) (hs : edit.Sound tree) {op : EditOp}
    {rest : List EditOp} {consumed : List NodeId} (hop : op.Allowed tree edit)
    (hfresh : op.anchor ∉ consumed) :
    edit.checkOps tree consumed (op :: rest) =
      edit.checkOps tree (if op.consumesAnchor then op.anchor :: consumed else consumed) rest := by
  have hlt := hwf.lt_size hop.attached
  have hattached := (hwf.isAttached_eq_true hlt).2 hop.attached
  have hblock : op.needsBlock = true → tree.isInBlock op.anchor = .ok true := fun hneeds => by
    rw [Tree.isInBlock_eq hlt, hop.in_block hneeds]
  -- the tests come out one by one as the place of the anchor has them
  have hbase : ¬ op.anchor.index ≥ edit.baseSize := by
    rw [hs.baseSize_eq]
    exact Nat.not_le.2 hlt
  have hplaced : ∀ id, op.placed? = some id → ¬ id.index ≥ edit.limit := fun id hid =>
    Nat.not_le.2 (hop.placed_known id hid)
  rw [checkOps, if_neg hbase]
  cases hid : op.placed? with
  | none => cases hneeds : op.needsBlock <;> simp_all
  | some id =>
    have hknown := hplaced id hid
    cases hneeds : op.needsBlock <;> simp_all

end LoopToStream
