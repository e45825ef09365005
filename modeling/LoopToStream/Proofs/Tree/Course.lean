import LoopToStream.Proofs.Tree.Ancestors
import LoopToStream.Proofs.Tree.Checks
import LoopToStream.Proofs.Tree.Operations

/-!
# The course of an edit

What holds in the course of every edit that is let through, whatever its operations are and in
whatever order they come. An edit is checked against the tree that it is committed to, but carried
out one operation after the other, each on what the ones before have left. In between nodes may be
linked from several places or from none.

* `Edit.Accepted` — what is known of an edit that has been let through: each anchor hangs in the
  tree, and none comes again once it has been replaced or removed.
* `Edit.Course` — what is known after some of the operations. A node that is not put anywhere is
  linked no more often than before (`Course.fewer`), and a link is kept unless the node that it
  leads to has been replaced or removed (`Course.kept`). One operation keeps this up
  (`Course.step`), and so do all (`Course.of_foldlM`).
* `Course.attached_of_way` — an anchor is still in the tree where no operation has replaced or
  removed a node above it and the top is the one of before.
-/

namespace LoopToStream

variable {tree now next result : Tree} {edit : Edit} {op : EditOp} {before after : List EditOp}
  {a c n p up : NodeId} {kind : Kind NodeId}

/-! ### What an operation does to a layer -/

namespace EditOp

theorem mapBlock_cases (f : List NodeId → List NodeId) (kind : Kind NodeId) :
    (∃ stmts, kind = .stmt (.block stmts) ∧ Tree.mapBlock f kind = .stmt (.block (f stmts))) ∨
      (kind.stmt?.any Stmt.isBlock = false ∧ Tree.mapBlock f kind = kind) := by
  cases kind with
  | stmt s => cases s <;> first | exact .inl ⟨_, rfl, rfl⟩ | exact .inr ⟨rfl, rfl⟩
  | expr e => exact .inr ⟨rfl, rfl⟩
  | comment text => exact .inr ⟨rfl, rfl⟩

theorem count_map_le (f : NodeId → NodeId) (hf : ∀ x, f x = n → x = n) (l : List NodeId) :
    (l.map f).count n ≤ l.count n := by
  rw [List.count_eq_countP, List.count_eq_countP, List.countP_map]
  refine List.countP_mono_left fun x _ hx => ?_
  simp only [Function.comp_apply, beq_iff_eq] at hx ⊢
  exact hf x hx

theorem count_insertInFront (stmts : List NodeId) {stmt : NodeId} (h : stmt ≠ n) :
    (Tree.insertInFront a stmt stmts).count n = stmts.count n := by
  have hsplit :
      stmts.count n = (stmts.takeWhile (· ≠ a)).count n + (stmts.dropWhile (· ≠ a)).count n := by
    rw [← List.count_append, List.takeWhile_append_dropWhile]
  rw [Tree.insertInFront]
  split
  · rw [List.count_append, List.count_cons_of_ne h, hsplit]
  · rw [List.count_cons_of_ne h]

/-- **No more links.** An operation links no node more often, but the one that it puts somewhere. -/
theorem count_change_le (hn : op.placed? ≠ some n) (kind : Kind NodeId) :
    (op.change kind).children.count n ≤ kind.children.count n := by
  cases op with
  | replace old new =>
    -- only the anchor is exchanged, for a node that is not the one that is counted
    have hne : new ≠ n := fun heq => hn (congrArg some heq)
    rw [change, Kind.children_map]
    refine count_map_le _ (fun x hx => ?_) _
    split at hx
    · exact absurd hx hne
    · exact hx
  | remove stmt =>
    rcases mapBlock_cases (fun stmts => stmts.filter (· ≠ stmt)) kind with
      ⟨stmts, rfl, hchange⟩ | ⟨-, hchange⟩
    · rw [change, hchange]
      exact List.filter_sublist.count_le n
    · rw [change, hchange]
  | insertBefore anchor stmt =>
    -- only the statement is put in, which is another node
    have hne : stmt ≠ n := fun heq => hn (congrArg some heq)
    rcases mapBlock_cases (Tree.insertInFront anchor stmt) kind with
      ⟨stmts, rfl, hchange⟩ | ⟨-, hchange⟩
    · rw [change, hchange]
      exact (count_insertInFront stmts hne).le
    · rw [change, hchange]

/-- What is linked afterwards was linked before or is put there. -/
theorem mem_or_placed_of_mem_change (h : n ∈ (op.change kind).children) :
    n ∈ kind.children ∨ op.placed? = some n := by
  by_contra hno
  obtain ⟨hn, hplaced⟩ := not_or.1 hno
  have hle := count_change_le hplaced kind
  rw [List.count_eq_zero_of_not_mem hn] at hle
  exact List.count_eq_zero.1 (Nat.le_zero.1 hle) h

/-- **No link is lost** but those to an anchor that is replaced or removed. -/
theorem mem_change (hn : n ∈ kind.children) (h : op.consumesAnchor = true → op.anchor ≠ n) :
    n ∈ (op.change kind).children := by
  cases op with
  | replace old new =>
    -- what is not the anchor stays
    have hne : n ≠ old := (h rfl).symm
    rw [change, Kind.children_map]
    exact List.mem_map.2 ⟨n, hn, if_neg hne⟩
  | remove stmt =>
    -- what is not the anchor is not filtered out
    have hne : n ≠ stmt := (h rfl).symm
    rcases mapBlock_cases (fun stmts => stmts.filter (· ≠ stmt)) kind with
      ⟨stmts, rfl, hchange⟩ | ⟨-, hchange⟩
    · rw [change, hchange]
      exact List.mem_filter.2 ⟨hn, by simpa using hne⟩
    · rwa [change, hchange]
  | insertBefore anchor stmt =>
    rcases mapBlock_cases (Tree.insertInFront anchor stmt) kind with
      ⟨stmts, rfl, hchange⟩ | ⟨-, hchange⟩
    · rw [change, hchange]
      by_cases heq : stmt = n
      · change n ∈ Tree.insertInFront anchor stmt stmts
        rw [Tree.insertInFront]
        split <;> simp [heq]
      · exact List.count_pos_iff.1 ((List.count_pos_iff.2 hn).trans_eq
          (count_insertInFront stmts heq).symm)
    · rwa [change, hchange]

/-- Blocks stay blocks, and nothing else becomes one. -/
theorem isBlock_change (op : EditOp) (kind : Kind NodeId) :
    (op.change kind).stmt?.any Stmt.isBlock = kind.stmt?.any Stmt.isBlock := by
  -- a block is mapped to a block, and any other layer to itself
  have hblock :
      ∀ f, (Tree.mapBlock f kind).stmt?.any Stmt.isBlock = kind.stmt?.any Stmt.isBlock := by
    intro f
    rcases mapBlock_cases f kind with ⟨stmts, rfl, hchange⟩ | ⟨-, hchange⟩ <;> rw [hchange]
    rfl
  cases op with
  | replace old new =>
    rw [change]
    cases kind with
    | stmt s => cases s <;> rfl
    | expr e => rfl
    | comment text => rfl
  | remove stmt => exact hblock _
  | insertBefore anchor stmt => exact hblock _

end EditOp

/-! ### One operation, whatever it meets -/

namespace Tree

/-- Without a parent, a node counts as the top. -/
def withTop (tree : Tree) : EditOp → Tree
  | .replace _ new => { tree with root := new }
  | _ => tree

@[simp] theorem withTop_kind? : (tree.withTop op).kind? n = tree.kind? n := by cases op <;> rfl

@[simp] theorem withTop_size : (tree.withTop op).size = tree.size := by cases op <;> rfl

@[simp] theorem withTop_revision : (tree.withTop op).revision = tree.revision := by cases op <;> rfl

/-- **The steps of an operation** are the same for all of them, up to what is done to the layer. -/
theorem changeLinks_steps (op : EditOp) :
    tree.changeLinks op = (do
      match ← tree.parent op.anchor with
      | none => return tree.withTop op
      | some up =>
        discard (tree.node up)
        return tree.modifyKind up op.change) := by
  cases op <;> rfl

/-- An operation changes the layer of one node or, at most, which node is the top. -/
theorem changeLinks_cases {changed : Tree} (h : tree.changeLinks op = .ok changed) :
    changed = tree.withTop op ∨ ∃ up, changed = tree.modifyKind up op.change := by
  rw [changeLinks_steps] at h
  obtain ⟨parent, -, h⟩ := bind_eq_ok.1 h
  cases parent with
  | none => exact .inl (Except.ok.inj h).symm
  | some up =>
    obtain ⟨-, -, h⟩ := bind_eq_ok.1 h
    exact .inr ⟨up, (Except.ok.inj h).symm⟩

/-- **What an operation has done**: it has changed the layer of the parent of its anchor or, where
the anchor has no parent, at most which node is the top. -/
theorem applyOp_cases (hanchor : op.anchor.index < tree.size)
    (hparent : ∀ up, tree.parent? op.anchor = some up → up.index < tree.size)
    (h : tree.applyOp op = .ok next) :
    (tree.parent? op.anchor = none ∧ next = (tree.withTop op).relinked) ∨
      ∃ up, tree.parent? op.anchor = some up ∧ next = (tree.modifyKind up op.change).relinked := by
  rw [applyOp] at h
  obtain ⟨changed, hchanged, hrelink⟩ := bind_eq_ok.1 h
  obtain rfl := eq_relinked_of_relink hrelink
  -- a replacement without a parent makes another node the top, and the other two do nothing
  cases hup : tree.parent? op.anchor with
  | none =>
    have hlink := (parent_of_lt hanchor).trans (congrArg Except.ok hup)
    refine .inl ⟨rfl, ?_⟩
    cases op <;> simp only [EditOp.anchor] at hlink <;>
      rw [changeLinks, hlink] at hchanged <;> cases hchanged <;> rfl
  | some up =>
    rw [changeLinks_eq hup (hparent up hup)] at hchanged
    cases hchanged
    exact .inr ⟨up, rfl, rfl⟩

/-- A layer that is changed has links to what was linked and to what is put there. -/
theorem Closed.change (h : tree.Closed)
    (hplaced : ∀ new, op.placed? = some new → new.index < tree.size) :
    (tree.modifyKind up op.change).Closed :=
  h.modifyKind fun kind hkind c hc =>
    (EditOp.mem_or_placed_of_mem_change hc).elim (h.links_known up kind hkind c) (hplaced c)

/-- The parent that is set for a node links it, and a node without one is not linked. -/
structure ParentSet (tree : Tree) (id : NodeId) : Prop where
  links : ∀ p, tree.parent? id = some p → tree.Attached p ∧ id ∈ tree.parts p
  unlinked : tree.parent? id = none → ∀ p, tree.Attached p → id ∉ tree.parts p

theorem Relinked.parentSet (h : tree.Relinked) (hlt : a.index < tree.size) : tree.ParentSet a where
  links p hp := by
    rw [h.parent?_eq, if_pos hlt] at hp
    have hmem := List.mem_of_getLast? hp
    rw [List.mem_filter, decide_eq_true_eq] at hmem
    exact ⟨mem_linkOrder.1 hmem.1, hmem.2⟩
  unlinked hno p hp hmem := by
    rw [h.parent?_eq, if_pos hlt] at hno
    -- no node hands out the parent, so none of them links it
    have hnil := List.getLast?_eq_none_iff.1 hno
    have hin : p ∈ tree.linkOrder.filter fun q => a ∈ tree.parts q :=
      List.mem_filter.2 ⟨mem_linkOrder.2 hp, by simpa using hmem⟩
    rw [hnil] at hin
    cases hin

/-- What hangs in the tree and is not linked is the top. -/
theorem ParentSet.eq_root (h : tree.ParentSet a) (ha : tree.Attached a)
    (hno : tree.parent? a = none) :
    a = tree.root :=
  ha.eq_root_or.resolve_right fun ⟨p, hp, hmem⟩ => h.unlinked hno p hp hmem

end Tree

/-! ### Edits that are let through -/

namespace Edit

/-- **An edit that is let through**, and the tree that its operations leave. -/
structure Accepted (tree : Tree) (edit : Edit) (changed : Tree) : Prop where
  baseSize_eq : edit.baseSize = tree.size
  links_known : ∀ id kind, tree.size ≤ id.index → (edit.atop tree).kind? id = some kind →
    ∀ c ∈ kind.children, c.index < edit.limit
  allowed : ∀ op ∈ edit.ops, op.Allowed tree edit
  /-- What has been replaced or removed is no anchor any more. -/
  once : edit.ops.Pairwise fun earlier later =>
    earlier.consumesAnchor = true → earlier.anchor ≠ later.anchor
  carried : edit.ops.foldlM Tree.applyOp (edit.atop tree) = .ok changed

/-- The links that have passed the check lead to nodes that will be there. -/
theorem lt_limit_of_checkLinks {links adopted : List NodeId}
    (h : edit.checkLinks adopted links = .ok ()) : ∀ c ∈ links, c.index < edit.limit := by
  induction links generalizing adopted with
  | nil => simp
  | cons c rest ih =>
    rw [checkLinks] at h
    -- the first of the tests is whether there is such a node, the others are about being linked
    -- once
    split at h
    · simp [EditFault.refuse] at h
    · next hknown =>
      have hc : c.index < edit.limit := Nat.not_le.1 hknown
      split at h
      · simpa using ⟨hc, ih h⟩
      · split at h
        · simp [EditFault.refuse] at h
        · simpa using ⟨hc, ih h⟩

/-- An operation that is let through can be carried out on the tree as it was, and the others are
looked at next. -/
theorem of_checkOps_cons {rest : List EditOp} {consumed : List NodeId} (hwf : tree.WellFormed)
    (hsize : edit.baseSize = tree.size) (h : edit.checkOps tree consumed (op :: rest) = .ok ()) :
    op.Allowed tree edit ∧ op.anchor ∉ consumed ∧
      edit.checkOps tree (if op.consumesAnchor then op.anchor :: consumed else consumed) rest =
        .ok () := by
  obtain ⟨⟨hlt, hplaced, hattached, hblock⟩, hfresh, hrest⟩ := passed_of_checkOps_cons h
  rw [hsize] at hlt
  refine ⟨⟨(hwf.isAttached_eq_true hlt).1 hattached, hplaced, fun hneeds => ?_⟩, hfresh, hrest⟩
  have hanswer := hblock hneeds
  rw [Tree.isInBlock_eq hlt] at hanswer
  exact Except.ok.inj hanswer

/-- **Operations that are let through.** By induction on the operations, with what has been
consumed. -/
theorem of_checkOps {ops : List EditOp} {consumed : List NodeId} (hwf : tree.WellFormed)
    (hsize : edit.baseSize = tree.size) (h : edit.checkOps tree consumed ops = .ok ()) :
    (∀ op ∈ ops, op.Allowed tree edit ∧ op.anchor ∉ consumed) ∧
      ops.Pairwise fun earlier later =>
        earlier.consumesAnchor = true → earlier.anchor ≠ later.anchor := by
  induction ops generalizing consumed with
  | nil => simp
  | cons op rest ih =>
    -- the first operation is checked, and its anchor counts as consumed for the others
    obtain ⟨hallowed, hfresh, hrest⟩ := of_checkOps_cons hwf hsize h
    obtain ⟨hall, honce⟩ := ih hrest
    refine ⟨fun other hother => ?_,
      List.pairwise_cons.2 ⟨fun later hlater hconsumes heq => ?_, honce⟩⟩
    · rcases List.mem_cons.1 hother with rfl | hother
      · exact ⟨hallowed, hfresh⟩
      · -- what counts as consumed for the others includes what did before
        refine ⟨(hall other hother).1, fun hmem => (hall other hother).2 ?_⟩
        split
        · exact List.mem_cons_of_mem _ hmem
        · exact hmem
    · refine (hall later hlater).2 ?_
      rw [if_pos hconsumes, heq]
      exact List.mem_cons_self

/-- What stands behind the tree has been staged. -/
theorem mem_staged_of_kind? (hle : tree.size ≤ n.index) (h : (edit.atop tree).kind? n = some kind) :
    ∃ node ∈ edit.staged.toList, node.kind = kind := by
  obtain ⟨node, hnode, rfl⟩ := Tree.kind?_eq_some.1 h
  refine ⟨node, ?_, rfl⟩
  rw [Tree.node?, atop, Array.getElem?_append_right hle] at hnode
  exact Array.mem_toList_iff.2 (Array.mem_of_getElem? hnode)

/-- **What a commit that succeeds has let through.** -/
theorem accepted_of_commit (hwf : tree.WellFormed) (h : tree.commit edit = .ok result) :
    ∃ changed, edit.Accepted tree changed ∧
      result = { changed with revision := changed.revision + 1 } := by
  obtain ⟨hsize, hlinks, hops, changed, hchanged, hresult⟩ := of_commit h
  obtain ⟨hall, honce⟩ := of_checkOps hwf hsize hops
  refine ⟨changed, ⟨hsize, fun id kind hle hkind c hc => ?_, fun op hop => (hall op hop).1, honce,
    hchanged⟩, hresult⟩
  obtain ⟨node, hnode, rfl⟩ := mem_staged_of_kind? hle hkind
  exact lt_limit_of_checkLinks hlinks c (List.mem_flatMap.2 ⟨node, hnode, hc⟩)

namespace Accepted

variable {changed : Tree} (h : edit.Accepted tree changed)
include h

theorem size_atop : (edit.atop tree).size = edit.limit := by
  simp [atop, Tree.size, limit, h.baseSize_eq]

theorem le_limit : tree.size ≤ edit.limit := by
  simp [limit, h.baseSize_eq]

/-- The longer table has no dangling links. -/
theorem closed_atop (hclosed : tree.Closed) : (edit.atop tree).Closed :=
  Edit.closed_atop hclosed fun id kind hle hkind c hc =>
    h.size_atop ▸ h.links_known id kind hle hkind c hc

end Accepted

end Edit

/-! ### In the course of an edit -/

/-- What hangs in the tree hangs there as well when the table has become longer, and nothing else
does. -/
theorem Tree.attached_atop_iff_of_known (hknown : ∀ n, tree.Attached n → n.index < tree.size) :
    (edit.atop tree).Attached a ↔ tree.Attached a := by
  -- staging puts nodes behind the table, where nothing that hangs in the tree leads to
  have hsame : tree.SameBelow (edit.atop tree) tree.root := fun n hn =>
    (edit.grows_atop tree).kind?_eq n (hknown n hn)
  constructor
  · intro ha
    have hroot : tree.Attached (edit.atop tree).root := Tree.attached_root
    refine ha.bound tree.Attached hroot fun p hp c hc => ?_
    rw [(hsame.of_reaches hp).parts_eq] at hc
    exact hp.of_mem hc
  · exact fun ha => hsame.reaches ha

theorem Tree.attached_atop_iff (hclosed : tree.Closed) :
    (edit.atop tree).Attached a ↔ tree.Attached a :=
  Tree.attached_atop_iff_of_known fun _ hn => hclosed.lt_size hn

/-- Staged nodes have no part in the parents of what hangs in the tree. -/
theorem Tree.Relinked.parentSet_atop (h : tree.Relinked) (hclosed : tree.Closed)
    (hn : tree.Attached n) :
    (edit.atop tree).ParentSet n := by
  -- the entry of the node is in the old table, and so are those that link it
  have hparent : (edit.atop tree).parent? n = tree.parent? n := by
    rw [Tree.parent?, Edit.atop_node?_of_lt (hclosed.lt_size hn)]
    rfl
  have hparts : ∀ p, tree.Attached p → (edit.atop tree).parts p = tree.parts p := fun p hp => by
    rw [Tree.parts, (edit.grows_atop tree).kind?_eq p (hclosed.lt_size hp), Tree.parts]
  have hset := h.parentSet (hclosed.lt_size hn)
  refine ⟨fun p hp => ?_, fun hno p hp => ?_⟩
  · obtain ⟨hattached, hmem⟩ := hset.links p (hparent ▸ hp)
    exact ⟨(attached_atop_iff hclosed).2 hattached, hparts p hattached ▸ hmem⟩
  · rw [attached_atop_iff hclosed] at hp
    exact hparts p hp ▸ hset.unlinked (hparent ▸ hno) p hp

namespace Edit

/-- **In the course of an edit**: what can be said after the operations `before`. -/
structure Course (tree : Tree) (edit : Edit) (before : List EditOp) (now : Tree) : Prop where
  closed : now.Closed
  size_eq : now.size = edit.limit
  /-- Parents are set where anchors are. -/
  parentSet : ∀ n, tree.Attached n → now.ParentSet n
  isBlock_eq : ∀ p, now.isBlock p = (edit.atop tree).isBlock p
  /-- Only what is put somewhere may be linked more often. -/
  fewer : ∀ n, (∀ op ∈ before, op.placed? ≠ some n) →
    ∀ p, (now.parts p).count n ≤ ((edit.atop tree).parts p).count n
  /-- Only what is replaced or removed may be linked no more. -/
  kept : ∀ n, (∀ op ∈ before, op.consumesAnchor = true → op.anchor ≠ n) →
    ∀ p, n ∈ (edit.atop tree).parts p → n ∈ now.parts p
  top : now.root = tree.root ∨ ∃ op ∈ before, op.placed? = some now.root

namespace Course

variable {changed : Tree}

theorem start (hwf : tree.WellFormed) (h : edit.Accepted tree changed) :
    Course tree edit [] (edit.atop tree) where
  closed := h.closed_atop hwf.toClosed
  size_eq := h.size_atop
  parentSet _ hn := hwf.isRelinked.parentSet_atop hwf.toClosed hn
  isBlock_eq _ := rfl
  fewer _ _ _ := le_rfl
  kept _ _ _ hn := hn
  top := .inl rfl

theorem lt_size (hwf : tree.WellFormed) (h : edit.Accepted tree changed)
    (hcourse : Course tree edit before now) (ha : tree.Attached a) : a.index < now.size :=
  hcourse.size_eq ▸ (hwf.lt_size ha).trans_le h.le_limit

/-- After an operation on an anchor without a parent. -/
theorem step_top (hwf : tree.WellFormed) (h : edit.Accepted tree changed)
    (hcourse : Course tree edit before now) (hop : op ∈ edit.ops) :
    Course tree edit (before ++ [op]) (now.withTop op).relinked := by
  have hparts : ∀ p, (now.withTop op).relinked.parts p = now.parts p := fun p => by
    rw [Tree.relinked_parts, Tree.parts, Tree.withTop_kind?, Tree.parts]
  -- an operation without a parent changes the top at most, to a node that is known
  have hclosed : (now.withTop op).Closed := by
    refine ⟨?_, fun id kind hkind => ?_⟩
    · rw [Tree.withTop_size]
      cases op with
      | replace old new => exact hcourse.size_eq ▸ (h.allowed _ hop).placed_known new rfl
      | remove stmt => exact hcourse.closed.top_known
      | insertBefore anchor stmt => exact hcourse.closed.top_known
    · rw [Tree.withTop_kind?] at hkind
      rw [Tree.withTop_size]
      exact hcourse.closed.links_known id kind hkind
  refine {
    closed := hclosed.relinked
    size_eq := by simpa using hcourse.size_eq
    parentSet := fun n hn =>
      Tree.Relinked.relinked.parentSet (by simpa using hcourse.lt_size hwf h hn)
    isBlock_eq := fun p => by
      rw [← hcourse.isBlock_eq p, Tree.isBlock, Tree.isBlock, Tree.stmt?, Tree.stmt?,
        Tree.relinked_kind?, Tree.withTop_kind?]
    fewer := fun n hn p => by
      rw [hparts]
      exact hcourse.fewer n (fun o ho => hn o (by simp [ho])) p
    kept := fun n hn p hmem => by
      rw [hparts]
      exact hcourse.kept n (fun o ho => hn o (by simp [ho])) p hmem
    top := ?_ }
  rw [Tree.relinked_root]
  have hbefore : now.root = tree.root ∨ ∃ o ∈ before ++ [op], o.placed? = some now.root := by
    refine hcourse.top.imp_right ?_
    rintro ⟨o, ho, hplaced⟩
    exact ⟨o, by simp [ho], hplaced⟩
  cases op with
  | replace old new => exact .inr ⟨.replace old new, by simp, rfl⟩
  | remove stmt => exact hbefore
  | insertBefore anchor stmt => exact hbefore

/-- After an operation that has changed a layer. -/
theorem step_layer (hwf : tree.WellFormed) (h : edit.Accepted tree changed)
    (hcourse : Course tree edit before now) (hop : op ∈ edit.ops) (up : NodeId) :
    Course tree edit (before ++ [op]) (now.modifyKind up op.change).relinked := by
  -- the changed layer links what it linked and the node that is placed
  have hclosed : (now.modifyKind up op.change).Closed := hcourse.closed.change fun new hplaced =>
    hcourse.size_eq ▸ (h.allowed _ hop).placed_known new hplaced
  -- what a node links is what it linked, or the changed layer links it
  have hlayers : ∀ p, (now.modifyKind up op.change).relinked.parts p = now.parts p ∨
      ∃ kind, now.parts p = kind.children ∧
        (now.modifyKind up op.change).relinked.parts p = (op.change kind).children := by
    intro p
    rw [Tree.relinked_parts, Tree.parts, Tree.modifyKind_kind?]
    -- the layers of blocks stay blocks, and those of other statements do not become one
    split
    · next heq =>
      subst heq
      cases hkind : now.kind? p with
      | none => exact .inl (by simp [Tree.parts, hkind])
      | some kind => exact .inr ⟨kind, Tree.parts_eq_children hkind, rfl⟩
    · exact .inl rfl
  refine {
    closed := hclosed.relinked
    size_eq := by simpa using hcourse.size_eq
    parentSet := fun n hn =>
      Tree.Relinked.relinked.parentSet (by simpa using hcourse.lt_size hwf h hn)
    isBlock_eq := fun p => ?_
    fewer := fun n hn p => ?_
    kept := fun n hn p hmem => ?_
    top := hcourse.top.imp_right ?_ }
  · rw [← hcourse.isBlock_eq p, Tree.isBlock, Tree.isBlock, Tree.stmt?, Tree.stmt?,
      Tree.relinked_kind?, Tree.modifyKind_kind?]
    split
    · cases hkind : now.kind? p with
      | none => rfl
      | some kind => exact op.isBlock_change kind
    · rfl
  · have hle := hcourse.fewer n (fun o ho => hn o (by simp [ho])) p
    rcases hlayers p with hsame | ⟨kind, hold, hnew⟩
    · exact hsame ▸ hle
    · rw [hnew]
      exact (EditOp.count_change_le (hn op (by simp)) kind).trans (hold ▸ hle)
  · -- only consumed anchors are unlinked
    have hmem := hcourse.kept n (fun o ho => hn o (by simp [ho])) p hmem
    rcases hlayers p with hsame | ⟨kind, hold, hnew⟩
    · exact hsame ▸ hmem
    · rw [hnew]
      exact EditOp.mem_change (hold ▸ hmem) (hn op (by simp))
  · rintro ⟨o, ho, hplaced⟩
    exact ⟨o, by simp [ho], hplaced⟩

/-- **One operation more.** -/
theorem step (hwf : tree.WellFormed) (h : edit.Accepted tree changed)
    (hcourse : Course tree edit before now) (hop : op ∈ edit.ops)
    (happly : now.applyOp op = .ok next) :
    Course tree edit (before ++ [op]) next := by
  have hattached := (h.allowed op hop).attached
  have hset := hcourse.parentSet op.anchor hattached
  rcases Tree.applyOp_cases (hcourse.lt_size hwf h hattached)
    (fun up hup => hcourse.closed.lt_size (hset.links up hup).1) happly with
    ⟨-, rfl⟩ | ⟨up, -, rfl⟩
  · exact hcourse.step_top hwf h hop
  · exact hcourse.step_layer hwf h hop up

/-- **All operations.** By induction on them, from the end. -/
theorem of_foldlM (hwf : tree.WellFormed) (h : edit.Accepted tree changed)
    (hbefore : ∀ op ∈ before, op ∈ edit.ops)
    (hfold : before.foldlM Tree.applyOp (edit.atop tree) = .ok now) :
    Course tree edit before now := by
  induction before using List.reverseRecOn generalizing now with
  | nil =>
    cases hfold
    exact start hwf h
  | append_singleton before op ih =>
    rw [List.foldlM_append] at hfold
    obtain ⟨mid, hmid, hlast⟩ := bind_eq_ok.1 hfold
    rw [List.foldlM_cons] at hlast
    obtain ⟨last, happly, hlast⟩ := bind_eq_ok.1 hlast
    cases hlast
    -- what holds up to the last operation holds behind it as well
    exact (ih (fun o ho => hbefore o (by simp [ho])) hmid).step hwf h (hbefore op (by simp)) happly

end Course

end Edit

end LoopToStream
