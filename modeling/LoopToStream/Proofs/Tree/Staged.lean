import LoopToStream.Proofs.Tree.Landmarks
import LoopToStream.Proofs.Tree.WellFormed
import LoopToStream.Tree.Edit

/-!
# Staged code

The new nodes of an edit are looked at as the end of the table of the tree that they will become
part of (`Edit.atop`). Staging only ever makes that table longer (`Tree.Grows`), so that whatever
has been found out about staged code stays true while more is staged.

* `Edit.Sound` — the staged nodes link nodes that were there before them, mention variables of
  the tree, and have parts that fit. They are glue.
* `Tree.Built` — what hangs below some staged nodes: some subtrees of the tree, kept as they
  are, and a stretch of the new nodes, each of them once. The landmarks of the subtrees stand in
  the order in which the subtrees are given. `Built.layer` adds a node on top.
-/

namespace LoopToStream

open scoped List

/-- The ids from `lo` on, below `hi`. -/
def idsFrom (lo hi : Nat) : List NodeId := (List.range' lo (hi - lo)).map NodeId.mk

@[simp] theorem idsFrom_self (lo : Nat) : idsFrom lo lo = [] := by
  simp [idsFrom]

theorem mem_idsFrom {lo hi : Nat} {id : NodeId} :
    id ∈ idsFrom lo hi ↔ lo ≤ id.index ∧ id.index < hi := by
  simp only [idsFrom, List.mem_map, List.mem_range'_1]
  constructor
  · rintro ⟨i, hi, rfl⟩
    dsimp only
    omega
  · intro h
    exact ⟨id.index, by omega, rfl⟩

theorem nodup_idsFrom (lo hi : Nat) : (idsFrom lo hi).Nodup := by
  refine List.Nodup.map (fun i j h => NodeId.mk.inj h) ?_
  exact List.nodup_range'

theorem idsFrom_append {lo mid hi : Nat} (h₁ : lo ≤ mid) (h₂ : mid ≤ hi) :
    idsFrom lo mid ++ idsFrom mid hi = idsFrom lo hi := by
  rw [idsFrom, idsFrom, idsFrom, ← List.map_append]
  have hmid : mid = lo + (mid - lo) := by omega
  rw [show hi - lo = (mid - lo) + (hi - mid) by omega, ← List.range'_append_1, ← hmid]

theorem idsFrom_succ {lo hi : Nat} (h : lo ≤ hi) :
    idsFrom lo (hi + 1) = idsFrom lo hi ++ [⟨hi⟩] := by
  rw [← idsFrom_append h (Nat.le_succ hi)]
  simp [idsFrom]

namespace Tree

variable {tree tree' tree'' : Tree} {id a c : NodeId} {kind : Kind NodeId}

/-! ### Longer tables -/

/-- The second tree has a longer table, and the same nodes where the first one has any. -/
structure Grows (tree tree' : Tree) : Prop where
  size_le : tree.size ≤ tree'.size
  kind?_eq : ∀ id, id.index < tree.size → tree'.kind? id = tree.kind? id
  vars_eq : tree'.vars = tree.vars

namespace Grows

theorem refl (tree : Tree) : tree.Grows tree := ⟨Nat.le_refl _, fun _ _ => rfl, rfl⟩

theorem trans (h₁ : tree.Grows tree') (h₂ : tree'.Grows tree'') : tree.Grows tree'' where
  size_le := h₁.size_le.trans h₂.size_le
  kind?_eq id hid := (h₂.kind?_eq id (hid.trans_le h₁.size_le)).trans (h₁.kind?_eq id hid)
  vars_eq := h₂.vars_eq.trans h₁.vars_eq

theorem kind?_of_some (h : tree.Grows tree') (hid : tree.kind? id = some kind) :
    tree'.kind? id = some kind :=
  (h.kind?_eq id (lt_size_of_kind? hid)).trans hid

theorem sameBelow (h : tree.Grows tree') (hg : tree.Grounded a) : tree.SameBelow tree' a :=
  fun n hn => h.kind?_eq n (hg.of_reaches hn).lt_size

theorem grounded (h : tree.Grows tree') (hg : tree.Grounded a) : tree'.Grounded a :=
  (h.sameBelow hg).grounded hg

theorem preorder_eq (h : tree.Grows tree') (hg : tree.Grounded a) :
    tree'.preorder a = tree.preorder a :=
  (h.sameBelow hg).preorder_eq hg

theorem holds (h : tree.Grows tree') {slot : Slot} (hc : tree.Holds slot c) :
    tree'.Holds slot c := by
  obtain ⟨kind, hkind, hadmits⟩ := hc
  exact ⟨kind, h.kind?_of_some hkind, hadmits⟩

theorem reaches (h : tree.Grows tree') (hg : tree.Grounded a) (hn : tree.Reaches a id) :
    tree'.Reaches a id :=
  (h.sameBelow hg).reaches hn

theorem isClosure (h : tree.Grows tree') (hid : tree.isClosure id = true) :
    tree'.isClosure id = true := by
  obtain ⟨e, he, hclosure⟩ := (Option.any_eq_true _ _).1 hid
  rw [Tree.isClosure, expr?_eq_some.2 (h.kind?_of_some (expr?_eq_some.1 he))]
  exact hclosure

theorem fits (h : tree.Grows tree') (hk : tree.Fits kind) : tree'.Fits kind :=
  fun slot c hc => h.holds (hk slot c hc)

theorem var_eq (h : tree.Grows tree') (v : VarId) : tree'.var v = tree.var v := by
  rw [var, var, h.vars_eq]

end Grows

end Tree

/-! ### Staging nodes -/

namespace Edit

variable {edit : Edit} {tree : Tree} {kind : Kind NodeId} {place : Span} {id : NodeId}

/-- The tree with the staged nodes at the end of its table. -/
def atop (edit : Edit) (tree : Tree) : Tree := { tree with nodes := tree.nodes ++ edit.staged }

theorem atop_node?_of_lt (hid : id.index < tree.size) :
    (edit.atop tree).node? id = tree.node? id :=
  Array.getElem?_append_left hid

theorem grows_atop (edit : Edit) (tree : Tree) : tree.Grows (edit.atop tree) where
  size_le := by simp [atop, Tree.size]
  kind?_eq id hid := by simp [Tree.kind?, atop_node?_of_lt hid]
  vars_eq := rfl

@[simp] theorem add_fst : (edit.add kind place).1 = ⟨edit.limit⟩ := rfl

@[simp] theorem add_ops : (edit.add kind place).2.ops = edit.ops := rfl

@[simp] theorem limit_add : (edit.add kind place).2.limit = edit.limit + 1 := by
  simp [limit, add, Nat.add_assoc]

theorem size_atop_of_base (h : edit.baseSize = tree.size) : (edit.atop tree).size = edit.limit := by
  simp [atop, Tree.size, limit, h]

/-- What stands in the table after a node has been added to it. -/
theorem add_kind?_eq (h : edit.baseSize = tree.size) :
    ((edit.add kind place).2.atop tree).kind? id =
      if id = ⟨edit.limit⟩ then some kind else (edit.atop tree).kind? id := by
  have hsize : (tree.nodes ++ edit.staged).size = edit.limit := size_atop_of_base h
  -- the new node comes behind the table and what is staged, which is where the limit is
  have hiff : id.index = (tree.nodes ++ edit.staged).size ↔ id = ⟨edit.limit⟩ := by
    rw [hsize]
    exact ⟨fun heq => by rw [← heq], fun heq => by rw [heq]⟩
  simp only [Edit.add, atop, Tree.kind?, Tree.node?]
  rw [Array.append_push, Array.getElem?_push]
  by_cases hid : id = ⟨edit.limit⟩
  · rw [if_pos (hiff.2 hid), if_pos hid]
    rfl
  · rw [if_neg (mt hiff.1 hid), if_neg hid]

/-- The id of a new node is the first one that is free. -/
theorem add_kind? (h : edit.baseSize = tree.size) (kind : Kind NodeId) (place : Span) :
    ((edit.add kind place).2.atop tree).kind? ⟨edit.limit⟩ = some kind := by
  rw [add_kind?_eq h, if_pos rfl]

/-- A new node leaves those before as they are. -/
theorem grows_add (h : edit.baseSize = tree.size) (kind : Kind NodeId) (place : Span) :
    (edit.atop tree).Grows ((edit.add kind place).2.atop tree) where
  size_le := by simp [Edit.add, atop, Tree.size]
  kind?_eq id hid := by
    rw [add_kind?_eq h, if_neg]
    rintro rfl
    exact Nat.lt_irrefl _ (size_atop_of_base h ▸ hid)
  vars_eq := rfl

/-- The longer table has no dangling links either, if the staged nodes have none. -/
theorem closed_atop (hclosed : tree.Closed)
    (hlinks : ∀ id kind, tree.size ≤ id.index → (edit.atop tree).kind? id = some kind →
      ∀ c ∈ kind.children, c.index < (edit.atop tree).size) : (edit.atop tree).Closed where
  top_known := hclosed.top_known.trans_le (edit.grows_atop tree).size_le
  links_known id kind hkind c hc := by
    by_cases hid : id.index < tree.size
    · have hold := (edit.grows_atop tree).kind?_eq id hid
      rw [hkind] at hold
      exact (hclosed.links_known id kind hold.symm c hc).trans_le (edit.grows_atop tree).size_le
    · exact hlinks id kind (Nat.le_of_not_lt hid) hkind c hc

/-- An edit that belongs to a tree and whose staged nodes make sense in it. -/
structure Sound (tree : Tree) (edit : Edit) : Prop where
  baseSize_eq : edit.baseSize = tree.size
  baseRevision_eq : edit.baseRevision = tree.revision
  /-- Staged nodes link only what was there before. -/
  downward : ∀ id kind, tree.size ≤ id.index → (edit.atop tree).kind? id = some kind →
    ∀ c ∈ kind.children, c.index < id.index
  vars_known : ∀ id kind, tree.size ≤ id.index → (edit.atop tree).kind? id = some kind →
    ∀ v ∈ kind.vars, v.index < tree.vars.size
  fits : ∀ id kind, tree.size ≤ id.index → (edit.atop tree).kind? id = some kind →
    (edit.atop tree).Fits kind
  glue : ∀ id kind, tree.size ≤ id.index → (edit.atop tree).kind? id = some kind →
    kind.isGlue = true

namespace Sound

theorem size_atop (h : edit.Sound tree) : (edit.atop tree).size = edit.limit :=
  size_atop_of_base h.baseSize_eq

theorem start : (Edit.start tree).Sound tree := by
  -- nothing has been staged, so what is said about staged nodes is said about none
  have hnone : ∀ id kind, tree.size ≤ id.index →
      ((Edit.start tree).atop tree).kind? id ≠ some kind := by
    intro id kind hle hkind
    have hlt := Tree.lt_size_of_kind? hkind
    simp only [atop, Edit.start, Tree.size, Array.append_empty] at hlt
    exact absurd hlt (Nat.not_lt.2 hle)
  exact {
    baseSize_eq := rfl
    baseRevision_eq := rfl
    downward := fun id kind hle hkind => absurd hkind (hnone id kind hle)
    vars_known := fun id kind hle hkind => absurd hkind (hnone id kind hle)
    fits := fun id kind hle hkind => absurd hkind (hnone id kind hle)
    glue := fun id kind hle hkind => absurd hkind (hnone id kind hle) }

theorem le_limit (h : edit.Sound tree) : tree.size ≤ edit.limit := by
  simp [limit, h.baseSize_eq]

theorem closed_atop (h : edit.Sound tree) (hclosed : tree.Closed) : (edit.atop tree).Closed :=
  Edit.closed_atop hclosed fun id kind hle hkind c hc =>
    (h.downward id kind hle hkind c hc).trans (Tree.lt_size_of_kind? hkind)

/-- Operations are none of the staged nodes' business. -/
theorem addOp (h : edit.Sound tree) (op : EditOp) : (edit.addOp op).Sound tree :=
  ⟨h.baseSize_eq, h.baseRevision_eq, h.downward, h.vars_known, h.fits, h.glue⟩

theorem add_kind?_eq (h : edit.Sound tree) :
    ((edit.add kind place).2.atop tree).kind? id =
      if id = ⟨edit.limit⟩ then some kind else (edit.atop tree).kind? id :=
  Edit.add_kind?_eq h.baseSize_eq

theorem add_kind? (h : edit.Sound tree) (kind : Kind NodeId) (place : Span) :
    ((edit.add kind place).2.atop tree).kind? ⟨edit.limit⟩ = some kind :=
  Edit.add_kind? h.baseSize_eq kind place

theorem grows_add (h : edit.Sound tree) (kind : Kind NodeId) (place : Span) :
    (edit.atop tree).Grows ((edit.add kind place).2.atop tree) :=
  Edit.grows_add h.baseSize_eq kind place

/-- **A staged node** links what was there before, mentions known variables, has parts that fit,
and is glue. -/
theorem add (h : edit.Sound tree) (hlinks : ∀ c ∈ kind.children, c.index < edit.limit)
    (hvars : ∀ v ∈ kind.vars, v.index < tree.vars.size) (hfits : (edit.atop tree).Fits kind)
    (hglue : kind.isGlue = true) :
    (edit.add kind place).2.Sound tree := by
  -- a node of the longer table is the new one or one that was staged before
  have hcases : ∀ {id k}, ((edit.add kind place).2.atop tree).kind? id = some k →
      (id = ⟨edit.limit⟩ ∧ k = kind) ∨ (edit.atop tree).kind? id = some k := by
    intro id k hk
    rw [h.add_kind?_eq] at hk
    split at hk
    · next hid => exact .inl ⟨hid, (Option.some.inj hk).symm⟩
    · exact .inr hk
  refine ⟨h.baseSize_eq, h.baseRevision_eq, fun id k hle hk => ?_, fun id k hle hk => ?_,
    fun id k hle hk => ?_, fun id k hle hk => ?_⟩
  · -- field by field: the new node by what is asked of it, the others as before
    rcases hcases hk with ⟨rfl, rfl⟩ | hold
    · exact hlinks
    · exact h.downward id k hle hold
  · rcases hcases hk with ⟨rfl, rfl⟩ | hold
    · exact hvars
    · exact h.vars_known id k hle hold
  · rcases hcases hk with ⟨rfl, rfl⟩ | hold
    · exact (h.grows_add _ place).fits hfits
    · exact (h.grows_add _ place).fits (h.fits id k hle hold)
  · rcases hcases hk with ⟨rfl, rfl⟩ | hold
    · exact hglue
    · exact h.glue id k hle hold

end Sound

end Edit

/-! ### What has been built -/

namespace Tree

variable {tree tree' tree'' : Tree} {id : NodeId} {kind : Kind NodeId}
  {kept kept' ids ids' : List NodeId} {lo mid hi : Nat}

/-- Below some nodes of the longer table hang the subtrees of `kept`, as they are in the tree,
and the nodes numbered from `lo` to `hi`. The landmarks of the subtrees stand in this order,
whatever has been added. -/
structure Built (tree tree' : Tree) (kept : List NodeId) (lo hi : Nat) (ids : List NodeId) :
    Prop where
  grounded : ∀ c ∈ ids, tree'.Grounded c
  listed : ids.flatMap tree'.preorder ~ kept.flatMap tree.preorder ++ idsFrom lo hi
  landmarks_eq : ids.flatMap (tree'.landmarksUpTo tree.size) = kept.flatMap tree.landmarks

namespace Built

theorem nil : Built tree tree' [] lo lo [] := ⟨by simp, by simp, rfl⟩

/-- Subtrees of the tree are there as they are. -/
theorem keep (h : tree.Grows tree') (hkept : ∀ c ∈ kept, tree.Grounded c) :
    Built tree tree' kept lo lo kept where
  grounded c hc := h.grounded (hkept c hc)
  listed := by
    rw [idsFrom_self, List.append_nil, List.flatMap_congr fun c hc => h.preorder_eq (hkept c hc)]
  landmarks_eq := List.flatMap_congr fun c hc => by
    rw [(h.sameBelow (hkept c hc)).landmarksUpTo_eq (hkept c hc), (hkept c hc).landmarksUpTo_size]

theorem grow (h : Built tree tree' kept lo hi ids) (hgrow : tree'.Grows tree'') :
    Built tree tree'' kept lo hi ids where
  grounded c hc := hgrow.grounded (h.grounded c hc)
  listed := by
    rw [List.flatMap_congr fun c hc => hgrow.preorder_eq (h.grounded c hc)]
    exact h.listed
  landmarks_eq := by
    rw [← h.landmarks_eq]
    exact List.flatMap_congr fun c hc =>
      (hgrow.sameBelow (h.grounded c hc)).landmarksUpTo_eq (h.grounded c hc)

/-- Code that was staged one after the other stands side by side. -/
theorem append (h₁ : Built tree tree' kept lo mid ids) (h₂ : Built tree tree' kept' mid hi ids')
    (hlo : lo ≤ mid) (hhi : mid ≤ hi) : Built tree tree' (kept ++ kept') lo hi (ids ++ ids') where
  grounded c hc := (List.mem_append.1 hc).elim (h₁.grounded c) (h₂.grounded c)
  listed := by
    rw [List.flatMap_append, List.flatMap_append, ← idsFrom_append hlo hhi]
    -- both listings are joined, and the ids of the two stretches come together behind the kept
    -- nodes
    calc ids.flatMap tree'.preorder ++ ids'.flatMap tree'.preorder
        _ ~ (kept.flatMap tree.preorder ++ idsFrom lo mid) ++
            (kept'.flatMap tree.preorder ++ idsFrom mid hi) := h₁.listed.append h₂.listed
        _ ~ (kept.flatMap tree.preorder ++ kept'.flatMap tree.preorder) ++
            (idsFrom lo mid ++ idsFrom mid hi) := by
          simp only [List.append_assoc]
          refine List.Perm.append_left _ ?_
          simp only [← List.append_assoc]
          exact List.Perm.append_right _ List.perm_append_comm
  landmarks_eq := by
    rw [List.flatMap_append, List.flatMap_append, h₁.landmarks_eq, h₂.landmarks_eq]

/-- Code without landmarks of the tree may as well stand in front. -/
theorem rotate (h : Built tree tree' kept lo hi (ids ++ [id]))
    (hunmarked : tree'.landmarksUpTo tree.size id = []) :
    Built tree tree' kept lo hi (id :: ids) where
  grounded c hc := h.grounded c ((List.perm_append_singleton id ids).symm.subset hc)
  listed := ((List.perm_append_singleton id ids).symm.flatMap_right _).trans h.listed
  landmarks_eq := by
    rw [← h.landmarks_eq, List.flatMap_cons, List.flatMap_append, List.flatMap_singleton,
      hunmarked, List.nil_append, List.append_nil]

/-- **One more node on top** of its parts. -/
theorem layer (hkind : tree'.kind? ⟨hi⟩ = some kind) (h : Built tree tree' kept lo hi kind.children)
    (hold : tree.size ≤ lo) (hlo : lo ≤ hi) : Built tree tree' kept lo (hi + 1) [⟨hi⟩] := by
  have hg : tree'.Grounded ⟨hi⟩ := .layer hkind h.grounded
  refine ⟨by simpa using hg, ?_, ?_⟩
  · rw [List.flatMap_singleton, hg.preorder_eq, parts_eq_children hkind, idsFrom_succ hlo,
      ← List.append_assoc]
    exact (List.Perm.cons _ h.listed).trans (List.perm_append_singleton _ _).symm
  · rw [List.flatMap_singleton, hg.landmarksUpTo_eq (hold.trans hlo), parts_eq_children hkind,
      h.landmarks_eq]

theorem grounded_single (h : Built tree tree' kept lo hi [id]) : tree'.Grounded id :=
  h.grounded id (by simp)

end Built

end Tree

end LoopToStream
