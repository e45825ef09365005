import LoopToStream.Proofs.Tree.Checks
import LoopToStream.Proofs.Tree.Operations

/-!
# Carrying out an edit

The edits that pipelines are made with are of two forms, and each of them is carried out
completely:

* `Edit.commit_replace`, `Edit.commit_replace_behind` — one node is replaced, in a block perhaps
  behind comments that are put in front of it;
* `Edit.commit_fold` — comments are put in front of a declaration, its initial value is replaced,
  and the statement behind it is removed.

In each case `Tree.Committed` holds of the tree afterwards, and the layers that are not those of
the tree with its staged nodes are given.
-/

namespace LoopToStream

variable {tree next now : Tree} {edit : Edit} {a new up : NodeId}
    {left right comments : List NodeId}

namespace Tree

/-- What any edit leaves behind: a table with the staged nodes in it, parents that are set, and
one change more. -/
structure Committed (tree : Tree) (edit : Edit) (next : Tree) : Prop where
  closed : next.Closed
  relinked : next.Relinked
  size_eq : next.size = edit.limit
  vars_eq : next.vars = tree.vars
  revision_eq : next.revision = tree.revision + 1

theorem Relinked.setRevision (h : now.Relinked) (revision : UInt64) :
    Relinked { now with revision := revision } := by
  have hset : ({ now with revision := revision } : Tree).relinked =
      { now.relinked with revision := revision } := rfl
  have h : now.relinked = now := h
  rw [Relinked, hset, h]

end Tree

namespace Edit

/-- An edit is carried out if nothing speaks against it and its operations can be. -/
theorem commit_eq (hs : edit.Sound tree)
    (hlinks :
    edit.checkLinks [] (edit.staged.toList.flatMap fun node => node.kind.children) = .ok ())
    (hops : edit.checkOps tree [] edit.ops = .ok ())
    (hdone : edit.ops.foldlM Tree.applyOp (edit.atop tree) = .ok now) :
    tree.commit edit = .ok { now with revision := now.revision + 1 } := by
  have hcheck : edit.check tree = .ok () := by
    simp [check, hs.baseRevision_eq, hs.baseSize_eq, hlinks, hops]
  have hcarry : tree.carryOut edit = .ok { now with revision := now.revision + 1 } := by
    rw [Tree.carryOut, show ({ tree with nodes := tree.nodes ++ edit.staged } : Tree) =
      edit.atop tree from rfl, hdone]
    rfl
  rw [Tree.commit, hcheck, ok_bind, hcarry]
  rfl

/-- What an edit leaves behind, whose last operation has set the parents. -/
theorem committed_of (hclosed : now.Closed) (hrelinked : now.Relinked)
    (hsize : now.size = edit.limit) (hvars : now.vars = tree.vars)
    (hrevision : now.revision = tree.revision) :
    tree.Committed edit { now with revision := now.revision + 1 } where
  closed := ⟨hclosed.top_known, hclosed.links_known⟩
  relinked := hrelinked.setRevision _
  size_eq := hsize
  vars_eq := hvars
  revision_eq := congrArg (· + 1) hrevision

/-- Putting comments in front of a statement of a block is let through. -/
theorem checkOps_inserts (hwf : tree.WellFormed) (hs : edit.Sound tree) {anchor : NodeId}
    {consumed : List NodeId} {rest : List EditOp} (hanchor : tree.Attached anchor)
    (hblock : (tree.parent? anchor).any tree.isBlock = true)
    (hcomments : ∀ c ∈ comments, tree.Attached c) (hfresh : anchor ∉ consumed) :
    edit.checkOps tree consumed (comments.map (EditOp.insertBefore anchor) ++ rest) =
      edit.checkOps tree consumed rest := by
  induction comments with
  | nil => rfl
  | cons comment comments ih =>
    -- inserting takes nothing away, so the list of what is consumed stays the same
    have hop : (EditOp.insertBefore anchor comment).Allowed tree edit := {
      attached := hanchor
      placed_known := fun id hid => by
        cases hid
        exact (hwf.lt_size (hcomments comment (by simp))).trans_le hs.le_limit
      in_block := fun _ => hblock }
    rw [List.map_cons, List.cons_append, checkOps_cons hwf hs hop hfresh]
    exact ih fun c hc => hcomments c (by simp [hc])

theorem checkOps_replace (hwf : tree.WellFormed) (hs : edit.Sound tree) {consumed : List NodeId}
    {rest : List EditOp} (ha : tree.Attached a) (hnew : new.index < edit.limit)
    (hfresh : a ∉ consumed) :
    edit.checkOps tree consumed (.replace a new :: rest) =
      edit.checkOps tree (a :: consumed) rest := by
  have hop : (EditOp.replace a new).Allowed tree edit := {
    attached := ha
    placed_known := fun id hid => by
      cases hid
      exact hnew
    in_block := by simp [EditOp.needsBlock] }
  exact checkOps_cons hwf hs hop hfresh

/-! ### Replacing a node -/

/-- A layer with one part in the place of another. -/
def swapped (old new : NodeId) : Kind NodeId → Kind NodeId :=
  Kind.map fun id => if id = old then new else id

/-- Replacing a part of a node whose layer is known, as the last operation. -/
theorem applyOp_replace_part (hclosed : now.Closed) (hsize : now.size = edit.limit)
    (hparent : now.parent? a = some up) (hup : up.index < now.size)
    (hnew : new.index < edit.limit) :
    now.applyOp (.replace a new) = .ok (now.modifyKind up (swapped a new)).relinked ∧
      (now.modifyKind up (swapped a new)).Closed := by
  -- the only new link of the layer is the one to the other node
  have hchange : ∀ kind, now.kind? up = some kind →
      ∀ c ∈ (swapped a new kind).children, c.index < now.size := by
    intro kind hkind c hc
    rw [swapped, Kind.children_map] at hc
    obtain ⟨d, hd, rfl⟩ := List.mem_map.1 hc
    split
    · exact hsize ▸ hnew
    · exact hclosed.links_known up kind hkind d hd
  exact ⟨Tree.applyOp_eq (.replace a new) hclosed hparent hup hchange,
    hclosed.modifyKind hchange⟩

/-- **Replacing a node.** If it is the top, another node becomes the top; if it is not, the layer
that links it links the other node in its place. -/
theorem commit_replace (hwf : tree.WellFormed) (hs : edit.Sound tree)
    (hlinks :
    edit.checkLinks [] (edit.staged.toList.flatMap fun node => node.kind.children) = .ok ())
    (hops : edit.ops = [.replace a new]) (ha : tree.Attached a) (hnew : new.index < edit.limit) :
    ∃ next, tree.commit edit = .ok next ∧ tree.Committed edit next ∧
      ((a = tree.root ∧ next.root = new ∧ ∀ n, next.kind? n = (edit.atop tree).kind? n) ∨
        ∃ up, tree.Attached up ∧ a ∈ tree.parts up ∧ next.root = tree.root ∧
          (∀ n, n ≠ up → next.kind? n = (edit.atop tree).kind? n) ∧
          next.kind? up = (tree.kind? up).map (swapped a new)) := by
  -- the checks pass, and staging has changed nothing above the node
  have hcheck : edit.checkOps tree [] edit.ops = .ok () := by
    rw [hops, checkOps_replace hwf hs ha hnew (by simp)]
    rfl
  have hclosed := hs.closed_atop hwf.toClosed
  have hlt := hwf.lt_size ha
  have hparent : (edit.atop tree).parent? a = tree.parent? a := by
    rw [Tree.parent?, atop_node?_of_lt hlt]
    rfl
  have hone : ∀ {t : Tree}, (edit.atop tree).applyOp (.replace a new) = .ok t →
      edit.ops.foldlM Tree.applyOp (edit.atop tree) = .ok t := by
    intro t ht
    rw [hops, List.foldlM_cons, ht]
    rfl
  rcases ha.eq_root_or with rfl | ⟨up, hup, hmem⟩
  · have hdone := Tree.applyOp_replace_top hclosed (hlt.trans_le (edit.grows_atop tree).size_le)
      (hparent.trans hwf.parent?_root) (hs.size_atop ▸ hnew)
    refine ⟨_, commit_eq hs hlinks hcheck (hone hdone), committed_of ?_ .relinked ?_ ?_ ?_,
      .inl ⟨rfl, rfl, fun n => ?_⟩⟩
    · exact Tree.Closed.relinked ⟨hs.size_atop ▸ hnew, hclosed.links_known⟩
    · exact Tree.relinked_size.trans hs.size_atop
    · rfl
    · rfl
    · exact Tree.relinked_kind?
  · -- the layer of the parent is changed, and no other
    have huplt := (hwf.lt_size hup).trans_le (edit.grows_atop tree).size_le
    obtain ⟨hdone, hnext⟩ := applyOp_replace_part hclosed hs.size_atop
      (hparent.trans (hwf.parent?_of_mem hup hmem)) huplt hnew
    refine ⟨_, commit_eq hs hlinks hcheck (hone hdone),
      committed_of hnext.relinked .relinked ?_ ?_ ?_, .inr ⟨up, hup, hmem, rfl, fun n hn => ?_, ?_⟩⟩
    · simpa using hs.size_atop
    · rfl
    · rfl
    · exact Tree.relinked_kind?.trans (Tree.modifyKind_kind?_of_ne hn)
    · refine Tree.relinked_kind?.trans ?_
      rw [Tree.modifyKind_kind?_self, (edit.grows_atop tree).kind?_eq up (hwf.lt_size hup)]

/-- Where a node stands once, the other one stands in its place. -/
theorem map_swap (hleft : a ∉ left) (hright : a ∉ right) :
    (left ++ a :: right).map (fun id => if id = a then new else id) = left ++ new :: right := by
  have hsame : ∀ l : List NodeId, a ∉ l → l.map (fun id => if id = a then new else id) = l := by
    intro l hl
    refine (List.map_congr_left fun x hx => ?_).trans (List.map_id l)
    exact if_neg (ne_of_mem_of_not_mem hx hl)
  rw [List.map_append, List.map_cons, hsame left hleft, hsame right hright, if_pos rfl]

theorem swapped_children {kind : Kind NodeId} (h : kind.children = left ++ a :: right)
    (hleft : a ∉ left) (hright : a ∉ right) :
    (swapped a new kind).children = left ++ new :: right := by
  rw [swapped, Kind.children_map, h, map_swap hleft hright]

theorem swapped_block (hleft : a ∉ left) (hright : a ∉ right) :
    swapped a new (.stmt (.block (left ++ a :: right))) =
      .stmt (.block (left ++ new :: right)) := by
  rw [swapped, Kind.map, Stmt.map, map_swap hleft hright]

/-- **Replacing a statement of a block behind comments** that are put in front of it. -/
theorem commit_replace_behind (hwf : tree.WellFormed) (hs : edit.Sound tree)
    (hlinks :
    edit.checkLinks [] (edit.staged.toList.flatMap fun node => node.kind.children) = .ok ())
    (hops : edit.ops = comments.map (EditOp.insertBefore a) ++ [.replace a new])
    (hup : tree.Attached up) (hblock : tree.kind? up = some (.stmt (.block (left ++ a :: right))))
    (hcomments : ∀ c ∈ comments, tree.Attached c ∧ c ≠ a) (hnew : new.index < edit.limit) :
    ∃ next, tree.commit edit = .ok next ∧ tree.Committed edit next ∧ next.root = tree.root ∧
      (∀ n, n ≠ up → next.kind? n = (edit.atop tree).kind? n) ∧
      next.kind? up = some (.stmt (.block (left ++ comments ++ new :: right))) := by
  have hparts : tree.parts up = left ++ a :: right := Tree.parts_eq_children hblock
  have hmem : a ∈ tree.parts up := by simp [hparts]
  have ha : tree.Attached a := hup.of_mem hmem
  -- comments are let in since the anchor stands in a block
  have hinBlock : (tree.parent? a).any tree.isBlock = true := by
    rw [hwf.parent?_of_mem hup hmem]
    simp [Tree.isBlock, Tree.stmt?_eq_some.2 hblock, Stmt.isBlock]
  have hcheck : edit.checkOps tree [] edit.ops = .ok () := by
    rw [hops, checkOps_inserts hwf hs ha hinBlock (fun c hc => (hcomments c hc).1) (by simp),
      checkOps_replace hwf hs ha hnew (by simp)]
    rfl
  -- the anchor stands once in the block
  obtain ⟨hleft, hright⟩ := hwf.linkedOnce.notMem_beside hup hparts
  obtain ⟨now, hinserted, hnow⟩ := (Inserting.start hwf hs hblock).insertAll hwf hs hblock hup hleft
    comments (by simpa using hcomments)
  rw [List.nil_append] at hnow
  have huplt : up.index < now.size := hnow.size_eq ▸ (hwf.lt_size hup).trans_le hs.le_limit
  obtain ⟨hdone, hnext⟩ := applyOp_replace_part hnow.closed hnow.size_eq
    (hnow.parent up a hup hmem fun hc => (hcomments a hc).2 rfl) huplt hnew
  -- all comments, and then the statement
  have hall : edit.ops.foldlM Tree.applyOp (edit.atop tree) =
      .ok (now.modifyKind up (swapped a new)).relinked := by
    rw [hops, List.foldlM_append, hinserted]
    exact congrArg (· >>= pure) hdone
  refine ⟨_, commit_eq hs hlinks hcheck hall, committed_of hnext.relinked .relinked ?_ ?_ ?_,
    hnow.root_eq, fun n hn => ?_, ?_⟩
  · simpa using hnow.size_eq
  · exact hnow.vars_eq
  · exact hnow.revision_eq
  · refine Tree.relinked_kind?.trans ?_
    rw [Tree.modifyKind_kind?_of_ne hn, hnow.kind?_eq n hn]
  · refine Tree.relinked_kind?.trans ?_
    rw [Tree.modifyKind_kind?_self, hnow.block, Option.map_some, swapped_block ?_ hright]
    rw [List.mem_append, not_or]
    exact ⟨hleft, fun hc => (hcomments a hc).2 rfl⟩

end Edit

/-! ### Folding into a declaration -/

namespace Tree

/-- In the block `up`, a declaration with an initial value and the statement `loop` right behind
it. -/
structure DeclaredInFront (tree : Tree) (up declaration init loop : NodeId) (var : VarId)
    (left right : List NodeId) : Prop where
  attached : tree.Attached up
  block : tree.kind? up = some (.stmt (.block (left ++ declaration :: loop :: right)))
  declares : tree.kind? declaration = some (.stmt (.declare var (some init)))

namespace DeclaredInFront

variable {declaration init loop c : NodeId} {var : VarId}
  (h : tree.DeclaredInFront up declaration init loop var left right)

include h

theorem parts_up : tree.parts up = left ++ declaration :: loop :: right := parts_eq_children h.block

theorem mem_parts_up (hc : c ∈ [declaration, loop]) : c ∈ tree.parts up := by
  rw [h.parts_up]
  exact List.mem_append_right _ (List.mem_append_left right hc)

theorem parts_declaration : tree.parts declaration = [init] := parts_eq_children h.declares

theorem declaration_attached : tree.Attached declaration :=
  h.attached.of_mem (h.mem_parts_up (by simp))

theorem loop_attached : tree.Attached loop := h.attached.of_mem (h.mem_parts_up (by simp))

theorem init_attached : tree.Attached init :=
  h.declaration_attached.of_mem (by simp [h.parts_declaration])

theorem up_ne_declaration (hwf : tree.WellFormed) : up ≠ declaration := by
  rintro rfl
  exact hwf.linkedOnce.irrefl h.attached (.of_mem (h.mem_parts_up (by simp)))

theorem loop_ne_init (hwf : tree.WellFormed) : loop ≠ init := by
  rintro rfl
  have hloop : loop ∈ tree.parts up := h.mem_parts_up (by simp)
  exact h.up_ne_declaration hwf (hwf.linkedOnce.one_linker _ _ _ h.attached h.declaration_attached
    hloop (by simp [h.parts_declaration]))

theorem declaration_notMem (hwf : tree.WellFormed) : declaration ∉ left :=
  (hwf.linkedOnce.notMem_beside h.attached h.parts_up).1

theorem loop_notMem (hwf : tree.WellFormed) : loop ∉ left ++ [declaration] ∧ loop ∉ right :=
  hwf.linkedOnce.notMem_beside h.attached (by simp [h.parts_up])

theorem in_block (hwf : tree.WellFormed) (hc : c ∈ [declaration, loop]) :
    (tree.parent? c).any tree.isBlock = true := by
  rw [hwf.parent?_of_mem h.attached (h.mem_parts_up hc)]
  simp [isBlock, stmt?_eq_some.2 h.block, Stmt.isBlock]

end DeclaredInFront

end Tree

namespace Edit

variable {declaration init loop : NodeId} {var : VarId} {mid : Tree}

/-- In the course of an edit: comments have been put in front of a declaration, and its initial
value is now the staged node `new`. -/
structure Initialised (tree : Tree) (edit : Edit) (up declaration loop : NodeId) (var : VarId)
    (new : NodeId) (left comments right : List NodeId) (mid : Tree) : Prop where
  closed : mid.Closed
  relinked : mid.Relinked
  size_eq : mid.size = edit.limit
  root_eq : mid.root = tree.root
  vars_eq : mid.vars = tree.vars
  revision_eq : mid.revision = tree.revision
  kind?_eq : ∀ n, n ≠ up → n ≠ declaration → mid.kind? n = (edit.atop tree).kind? n
  block : mid.kind? up = some (.stmt (.block (left ++ comments ++ declaration :: loop :: right)))
  declares : mid.kind? declaration = some (.stmt (.declare var (some new)))

/-- The operations up to the one that removes the statement. -/
theorem exists_initialised (hwf : tree.WellFormed) (hs : edit.Sound tree)
    (h : tree.DeclaredInFront up declaration init loop var left right)
    (hcomments : ∀ c ∈ comments, tree.Attached c ∧ c ≠ declaration ∧ c ≠ init)
    (hnew : new.index < edit.limit) :
    ∃ mid, (comments.map (EditOp.insertBefore declaration) ++ [EditOp.replace init new]).foldlM
        Tree.applyOp (edit.atop tree) = .ok mid ∧
      Initialised tree edit up declaration loop var new left comments right mid := by
  have hupDecl := h.up_ne_declaration hwf
  obtain ⟨now, hinserted, hnow⟩ :=
    (Inserting.start hwf hs h.block).insertAll hwf hs h.block h.attached
    (h.declaration_notMem hwf) comments
    (by simpa using fun c hc => ⟨(hcomments c hc).1, (hcomments c hc).2.1⟩)
  rw [List.nil_append] at hnow
  have hlt : declaration.index < now.size :=
    hnow.size_eq ▸ (hwf.lt_size h.declaration_attached).trans_le hs.le_limit
  -- comments do not come between the declaration and its initial value
  have hparent : now.parent? init = some declaration :=
    hnow.parent declaration init h.declaration_attached (by simp [h.parts_declaration])
      fun hc => (hcomments init hc).2.2 rfl
  -- the declaration has a single part, which is exchanged
  obtain ⟨hreplaced, hclosed⟩ := applyOp_replace_part hnow.closed hnow.size_eq hparent hlt hnew
  refine ⟨_, ?_, {
    closed := hclosed.relinked
    relinked := .relinked
    size_eq := by simpa using hnow.size_eq
    root_eq := hnow.root_eq
    vars_eq := hnow.vars_eq
    revision_eq := hnow.revision_eq
    kind?_eq := fun n hnup hndecl => ?_
    block := ?_
    declares := ?_ }⟩
  · rw [List.foldlM_append, hinserted, ok_bind, List.foldlM_cons, hreplaced]
    rfl
  · rw [Tree.relinked_kind?, Tree.modifyKind_kind?_of_ne hndecl, hnow.kind?_eq n hnup]
  · rw [Tree.relinked_kind?, Tree.modifyKind_kind?_of_ne hupDecl, hnow.block]
  · rw [Tree.relinked_kind?, Tree.modifyKind_kind?_self, hnow.kind?_eq _ hupDecl.symm,
      (edit.grows_atop tree).kind?_of_some h.declares]
    simp [swapped, Kind.map, Stmt.map]

namespace Initialised

variable (hmid : Initialised tree edit up declaration loop var new left comments right mid)
include hmid

/-- What the block links by now hung in the tree before. -/
theorem attached_of_mem_parts_up (h : tree.DeclaredInFront up declaration init loop var left right)
    (hcomments : ∀ c ∈ comments, tree.Attached c) {c : NodeId} (hc : c ∈ mid.parts up) :
    tree.Attached c := by
  rw [Tree.parts_eq_children hmid.block] at hc
  simp only [Kind.children, Stmt.children, List.mem_append, List.mem_cons] at hc
  have hstays : c ∈ tree.parts up ∨ c ∈ comments := by
    rw [h.parts_up]
    simp only [List.mem_append, List.mem_cons]
    tauto
  exact hstays.elim h.attached.of_mem (hcomments c)

theorem parts_declaration : mid.parts declaration = [new] :=
  Tree.parts_eq_children hmid.declares

/-- Elsewhere, a node of the tree links what it linked. -/
theorem parts_eq (hwf : tree.WellFormed) {q : NodeId} (hq : tree.Attached q) (hqup : q ≠ up)
    (hqdecl : q ≠ declaration) : mid.parts q = tree.parts q := by
  rw [Tree.parts, hmid.kind?_eq q hqup hqdecl, (edit.grows_atop tree).kind?_eq q (hwf.lt_size hq)]
  rfl

/-- What can be reached could be reached in the tree, or is staged. -/
theorem attached_or (hwf : tree.WellFormed)
    (h : tree.DeclaredInFront up declaration init loop var left right)
    (hcomments : ∀ c ∈ comments, tree.Attached c) (hnew : tree.size ≤ new.index)
    (hstaged : ∀ p c, tree.size ≤ p.index → c ∈ (edit.atop tree).parts p → c.index < tree.size →
      tree.Attached c ∧ c ≠ loop) {q : NodeId} (hq : mid.Attached q) :
    tree.Attached q ∨ tree.size ≤ q.index := by
  refine hq.bound (fun q => tree.Attached q ∨ tree.size ≤ q.index) ?_ fun p hp c hc => ?_
  · exact .inl (hmid.root_eq ▸ Tree.attached_root)
  -- two layers have changed, and the others are those of the tree or staged
  by_cases hpup : p = up
  · exact .inl (hmid.attached_of_mem_parts_up h hcomments (hpup ▸ hc))
  by_cases hpdecl : p = declaration
  · rw [hpdecl, hmid.parts_declaration, List.mem_singleton] at hc
    exact .inr (hc ▸ hnew)
  rcases hp with hp | hp
  · exact .inl (hp.of_mem (hmid.parts_eq hwf hp hpup hpdecl ▸ hc))
  · by_cases hlt : c.index < tree.size
    · rw [Tree.parts, hmid.kind?_eq p hpup hpdecl] at hc
      exact .inl (hstaged p c hp hc hlt).1
    · exact .inr (Nat.le_of_not_lt hlt)

/-- The statement to be removed is still linked from its block, and from nowhere else. -/
theorem parent?_loop (hwf : tree.WellFormed) (hs : edit.Sound tree)
    (h : tree.DeclaredInFront up declaration init loop var left right)
    (hcomments : ∀ c ∈ comments, tree.Attached c) (hnew : tree.size ≤ new.index)
    (hstaged : ∀ p c, tree.size ≤ p.index → c ∈ (edit.atop tree).parts p → c.index < tree.size →
      tree.Attached c ∧ c ≠ loop) :
    mid.parent? loop = some up := by
  have hlt := hwf.lt_size h.loop_attached
  refine hmid.relinked.parent?_of_only_link ?_ ?_ ?_ fun q hq hloop => ?_
  · exact hmid.size_eq ▸ hlt.trans_le hs.le_limit
  · -- nothing has changed above the block
    refine h.attached.transfer hmid.root_eq fun p c hp hc hcup => ?_
    rw [hmid.parts_eq hwf hp]
    · exact hc
    · rintro rfl
      exact hwf.linkedOnce.irrefl hp (Tree.strictlyReaches_iff.2 ⟨c, hc, hcup⟩)
    · rintro rfl
      exact hwf.linkedOnce.irrefl h.attached
        (Tree.strictlyReaches_iff.2 ⟨p, h.mem_parts_up (by simp), hcup.head hc⟩)
  · rw [Tree.parts_eq_children hmid.block]
    simp [Kind.children, Stmt.children]
  · -- another link would be in the declaration, in the tree of before, or in a staged node
    by_contra hqup
    by_cases hqdecl : q = declaration
    · rw [hqdecl, hmid.parts_declaration, List.mem_singleton] at hloop
      exact Nat.not_lt.2 hnew (hloop ▸ hlt)
    rcases hmid.attached_or hwf h hcomments hnew hstaged hq with hq | hq
    · exact hqup (hwf.linkedOnce.one_linker q up loop hq h.attached
        (hmid.parts_eq hwf hq hqup hqdecl ▸ hloop) (h.mem_parts_up (by simp)))
    · rw [Tree.parts, hmid.kind?_eq q hqup hqdecl] at hloop
      exact (hstaged q loop hq hloop hlt).2 rfl

end Initialised

theorem removed_block (hleft : loop ∉ left) (hright : loop ∉ right) :
    (EditOp.remove loop).change (.stmt (.block (left ++ loop :: right))) =
      .stmt (.block (left ++ right)) := by
  have hkeep : ∀ l : List NodeId, loop ∉ l → l.filter (fun c => !decide (c = loop)) = l :=
    fun l hl => List.filter_eq_self.2 fun x hx => by simpa using ne_of_mem_of_not_mem hx hl
  simp [EditOp.change, Tree.mapBlock, hkeep left hleft, hkeep right hright]

/-- Nothing speaks against folding into a declaration. -/
theorem checkOps_fold (hwf : tree.WellFormed) (hs : edit.Sound tree)
    (h : tree.DeclaredInFront up declaration init loop var left right)
    (hcomments : ∀ c ∈ comments, tree.Attached c) (hnew : new.index < edit.limit) :
    edit.checkOps tree [] (comments.map (EditOp.insertBefore declaration) ++
      [.replace init new, .remove loop]) = .ok () := by
  have hremove : (EditOp.remove loop).Allowed tree edit :=
    ⟨h.loop_attached, by simp [EditOp.placed?], fun _ => h.in_block hwf (by simp [EditOp.anchor])⟩
  rw [checkOps_inserts hwf hs h.declaration_attached (h.in_block hwf (by simp)) hcomments (by simp),
    checkOps_replace hwf hs h.init_attached hnew (by simp),
    checkOps_cons hwf hs hremove (by simpa [EditOp.anchor] using h.loop_ne_init hwf)]
  rfl

/-- **Replacing the initial value of a declaration** behind comments that are put in front of it,
and removing the statement that follows. What the staged nodes link of the tree is not to be
confused with that statement. -/
theorem commit_fold (hwf : tree.WellFormed) (hs : edit.Sound tree)
    (hlinks :
    edit.checkLinks [] (edit.staged.toList.flatMap fun node => node.kind.children) = .ok ())
    (hops : edit.ops = comments.map (EditOp.insertBefore declaration) ++
      [.replace init new, .remove loop])
    (h : tree.DeclaredInFront up declaration init loop var left right)
    (hcomments : ∀ c ∈ comments, tree.Attached c ∧ c ≠ declaration ∧ c ≠ init ∧ c ≠ loop)
    (hnew : tree.size ≤ new.index ∧ new.index < edit.limit)
    (hstaged : ∀ p c, tree.size ≤ p.index → c ∈ (edit.atop tree).parts p → c.index < tree.size →
      tree.Attached c ∧ c ≠ loop) :
    ∃ next, tree.commit edit = .ok next ∧ tree.Committed edit next ∧ next.root = tree.root ∧
      (∀ n, n ≠ up → n ≠ declaration → next.kind? n = (edit.atop tree).kind? n) ∧
      next.kind? up = some (.stmt (.block (left ++ comments ++ declaration :: right))) ∧
      next.kind? declaration = some (.stmt (.declare var (some new))) := by
  have hattached : ∀ c ∈ comments, tree.Attached c := fun c hc => (hcomments c hc).1
  obtain ⟨mid, hdone, hmid⟩ := exists_initialised hwf hs h
    (fun c hc => ⟨hattached c hc, (hcomments c hc).2.1, (hcomments c hc).2.2.1⟩) hnew.2
  -- the block without the statement links nothing new
  have hchanged : (EditOp.remove loop).change
      (.stmt (.block (left ++ comments ++ declaration :: loop :: right))) =
        .stmt (.block (left ++ comments ++ declaration :: right)) := by
    have hleft : loop ∉ left ++ comments ++ [declaration] := by
      have hfront := (h.loop_notMem hwf).1
      simp only [List.mem_append, not_or] at hfront ⊢
      exact ⟨⟨hfront.1, fun hc => (hcomments loop hc).2.2.2 rfl⟩, hfront.2⟩
    simpa using removed_block hleft (h.loop_notMem hwf).2
  -- it links what the block links, but for the statement
  have hchange : ∀ kind, mid.kind? up = some kind →
      ∀ c ∈ ((EditOp.remove loop).change kind).children, c.index < mid.size := by
    intro kind hkind c hc
    rw [hmid.block] at hkind
    cases hkind
    rw [hchanged] at hc
    refine hmid.closed.links_known up _ hmid.block c ?_
    simp only [Kind.children, Stmt.children, List.mem_append, List.mem_cons] at hc ⊢
    tauto
  have huplt : up.index < mid.size :=
    hmid.size_eq ▸ (hwf.lt_size h.attached).trans_le hs.le_limit
  have hremoved := Tree.applyOp_eq (.remove loop) hmid.closed
    (hmid.parent?_loop hwf hs h hattached hnew.1 hstaged) huplt hchange
  have hall : edit.ops.foldlM Tree.applyOp (edit.atop tree) =
      .ok (mid.modifyKind up (EditOp.remove loop).change).relinked := by
    rw [hops, List.append_cons, List.foldlM_append, hdone, ok_bind, List.foldlM_cons, hremoved]
    rfl
  refine ⟨_, commit_eq hs hlinks (hops ▸ checkOps_fold hwf hs h hattached hnew.2) hall,
    committed_of (hmid.closed.modifyKind hchange).relinked .relinked ?_ hmid.vars_eq
      hmid.revision_eq, hmid.root_eq, fun n hnup hndecl => ?_, ?_, ?_⟩
  · simpa using hmid.size_eq
  · refine Tree.relinked_kind?.trans ?_
    rw [Tree.modifyKind_kind?_of_ne hnup, hmid.kind?_eq n hnup hndecl]
  · refine Tree.relinked_kind?.trans ?_
    rw [Tree.modifyKind_kind?_self, hmid.block, Option.map_some, hchanged]
  · refine Tree.relinked_kind?.trans ?_
    rw [Tree.modifyKind_kind?_of_ne (h.up_ne_declaration hwf).symm, hmid.declares]

end Edit

end LoopToStream
