import LoopToStream.Proofs.Tree.Staged

/-!
# Operations on links

An operation of an edit changes one layer, that of the parent of its anchor, and sets the parents
anew (`Tree.applyOp_eq`). What has to be known before an operation is therefore only which node
is the parent of the anchor. In between two operations comments may be linked from two places,
and subtrees from the old code and the new; `Edit.Inserting.parent?_eq` finds the parent of an
anchor all the same, from what the links of the nodes that can be reached are bounded by.
-/

namespace LoopToStream

variable {tree tree' : Tree} {id up p c n a : NodeId} {f : Kind NodeId → Kind NodeId}

/-! ### Changing one layer -/

namespace Tree

@[simp] theorem modifyKind_root : (tree.modifyKind up f).root = tree.root := rfl

@[simp] theorem modifyKind_vars : (tree.modifyKind up f).vars = tree.vars := rfl

@[simp] theorem modifyKind_revision : (tree.modifyKind up f).revision = tree.revision := rfl

@[simp] theorem modifyKind_size : (tree.modifyKind up f).size = tree.size := by
  simp [modifyKind, size]

theorem modifyKind_node? : (tree.modifyKind up f).node? id =
    (tree.node? id).map fun node => if id = up then { node with kind := f node.kind }
      else node := by
  change (tree.nodes.modify _ _)[id.index]? = _
  rw [Array.getElem?_modify]
  by_cases h : id = up
  · simp [h, node?]
  · have hne : ¬ up.index = id.index := fun heq => h (by cases id; cases up; simp_all)
    simp [h, hne, node?]

theorem modifyKind_kind? : (tree.modifyKind up f).kind? id =
    if id = up then (tree.kind? id).map f else tree.kind? id := by
  rw [kind?, modifyKind_node?, kind?]
  by_cases h : id = up <;> simp [h, Function.comp_def]

@[simp] theorem modifyKind_kind?_of_ne (h : id ≠ up) :
    (tree.modifyKind up f).kind? id = tree.kind? id := by
  rw [modifyKind_kind?, if_neg h]

@[simp] theorem modifyKind_kind?_self :
    (tree.modifyKind up f).kind? up = (tree.kind? up).map f := by
  rw [modifyKind_kind?, if_pos rfl]

theorem Closed.modifyKind (h : tree.Closed)
    (hf : ∀ kind, tree.kind? up = some kind → ∀ c ∈ (f kind).children, c.index < tree.size) :
    (tree.modifyKind up f).Closed where
  top_known := by simpa using h.top_known
  links_known id kind hkind c hc := by
    rw [modifyKind_size]
    rw [modifyKind_kind?] at hkind
    -- the new layer is asked about, and the others are as they were
    split at hkind
    · next hid =>
      subst hid
      obtain ⟨old, hold, rfl⟩ := Option.map_eq_some_iff.1 hkind
      exact hf old hold c hc
    · exact h.links_known id kind hkind c hc

theorem Closed.relinked (h : tree.Closed) : tree.relinked.Closed where
  top_known := by simpa using h.top_known
  links_known id kind hkind := by simpa using h.links_known id kind (by simpa using hkind)

end Tree

/-! ### One operation -/

/-- What an operation does to the layer of the node that links its anchor. -/
def EditOp.change : EditOp → Kind NodeId → Kind NodeId
  | replace old new => Kind.map fun id => if id = old then new else id
  | remove stmt => Tree.mapBlock fun stmts => stmts.filter (· ≠ stmt)
  | insertBefore anchor stmt => Tree.mapBlock (Tree.insertInFront anchor stmt)

namespace Tree

theorem changeLinks_eq {op : EditOp} (hparent : tree.parent? op.anchor = some up)
    (hup : up.index < tree.size) : tree.changeLinks op = .ok (tree.modifyKind up op.change) := by
  -- a node that has a parent is in the table
  have hanchor : op.anchor.index < tree.size := by
    by_contra hno
    rw [parent?_of_size_le (Nat.le_of_not_lt hno)] at hparent
    simp at hparent
  obtain ⟨node, -, hnode⟩ := node_of_lt hup
  have hlink := parent_of_lt hanchor
  cases op <;>
    simp only [changeLinks, EditOp.anchor] at hparent hlink ⊢ <;>
    rw [hlink, hparent, ok_bind] <;>
    simp only [hnode] <;> rfl

/-- **One operation**, where the parent of the anchor is known. -/
theorem applyOp_eq (op : EditOp) (hclosed : tree.Closed)
    (hparent : tree.parent? op.anchor = some up) (hup : up.index < tree.size)
    (hchange : ∀ kind, tree.kind? up = some kind →
      ∀ c ∈ (op.change kind).children, c.index < tree.size) :
    tree.applyOp op = .ok (tree.modifyKind up op.change).relinked := by
  rw [applyOp, changeLinks_eq hparent hup]
  exact (hclosed.modifyKind hchange).relink_eq

/-- The top is replaced by making another node the top. -/
theorem applyOp_replace_top {old new : NodeId} (hclosed : tree.Closed)
    (hold : old.index < tree.size) (hparent : tree.parent? old = none)
    (hnew : new.index < tree.size) :
    tree.applyOp (.replace old new) = .ok ({ tree with root := new } : Tree).relinked := by
  rw [applyOp, changeLinks, parent_of_lt hold, hparent]
  exact Closed.relink_eq ⟨hnew, hclosed.links_known⟩

/-! ### Anchors between operations -/

/-- What can be reached stays within what the links do not lead out of. -/
theorem Attached.bound (inside : NodeId → Prop) (hroot : inside tree.root)
    (hlinks : ∀ p, inside p → ∀ c ∈ tree.parts p, inside c) (hn : tree.Attached n) : inside n := by
  induction hn with
  | refl => exact hroot
  | tail _ hc ih => exact hlinks _ ih _ hc

/-- A node is still reached if the links that lead to it are still there. -/
theorem Attached.transfer (hroot : tree'.root = tree.root) (ha : tree.Attached a)
    (hlinks : ∀ p c, tree.Attached p → c ∈ tree.parts p → tree.Reaches c a → c ∈ tree'.parts p) :
    tree'.Attached a := by
  have hway : ∀ p, tree.Attached p → tree.Reaches p a → tree'.Attached p := by
    intro p hp
    induction hp with
    | refl => exact fun _ => hroot ▸ attached_root
    | @tail q p hq hp ih =>
      intro hpa
      exact (ih (hpa.head hp)).of_mem (hlinks q p hq hp hpa)
  exact hway a ha (.refl a)

end Tree

/-! ### Putting comments in front of a statement -/

/-- In the course of an edit: in the block `up`, nodes of the tree have been put in front of
`anchor`, and nothing else has happened to the tree with its staged nodes. -/
structure Edit.Inserting (tree : Tree) (edit : Edit) (up anchor : NodeId)
    (left inserted right : List NodeId) (now : Tree) : Prop where
  closed : now.Closed
  size_eq : now.size = edit.limit
  root_eq : now.root = tree.root
  vars_eq : now.vars = tree.vars
  revision_eq : now.revision = tree.revision
  kind?_eq : ∀ n, n ≠ up → now.kind? n = (edit.atop tree).kind? n
  block : now.kind? up = some (.stmt (.block (left ++ inserted ++ anchor :: right)))
  /-- Nodes that have not been put anywhere else have the parents that they had. -/
  parent : ∀ p c, tree.Attached p → c ∈ tree.parts p → c ∉ inserted → now.parent? c = some p

namespace Edit.Inserting

variable {edit : Edit} {now : Tree} {anchor comment : NodeId} {left inserted right : List NodeId}

/-- Before the first operation. -/
theorem start (hwf : tree.WellFormed) (hs : edit.Sound tree)
    (hblock : tree.kind? up = some (.stmt (.block (left ++ anchor :: right)))) :
    Inserting tree edit up anchor left [] right (edit.atop tree) where
  closed := hs.closed_atop hwf.toClosed
  size_eq := hs.size_atop
  root_eq := rfl
  vars_eq := rfl
  revision_eq := rfl
  kind?_eq _ _ := rfl
  block := by
    rw [(edit.grows_atop tree).kind?_of_some hblock]
    simp
  parent p c hp hc _ := by
    -- the anchor and what is in the block have their entries in the old part of the table
    have hlt := hwf.lt_size (hp.of_mem hc)
    rw [Tree.parent?, atop_node?_of_lt hlt]
    exact hwf.parent?_of_mem hp hc

theorem insertInFront_eq {stmts : List NodeId} (hanchor : anchor ∉ stmts) :
    Tree.insertInFront anchor comment (stmts ++ anchor :: right) =
      stmts ++ comment :: anchor :: right := by
  have hne : ∀ x ∈ stmts, (decide (x ≠ anchor)) = true := fun x hx => by
    simpa using ne_of_mem_of_not_mem hx hanchor
  rw [Tree.insertInFront, if_pos (by simp),
    List.takeWhile_append_of_pos hne, List.dropWhile_append_of_pos hne]
  simp

/-- What is linked once comments have been put into the block `up`. -/
theorem parts_eq (hgrow : tree.Grows (edit.atop tree)) (hlt : p.index < tree.size)
    (hkinds : ∀ n, n ≠ up → now.kind? n = (edit.atop tree).kind? n)
    (hup : now.kind? up = some (.stmt (.block (left ++ inserted ++ anchor :: right)))) :
    now.parts p =
      if p = up then left ++ inserted ++ anchor :: right else tree.parts p := by
  by_cases hp : p = up
  · rw [if_pos hp, hp, Tree.parts_eq_children hup]
    rfl
  · rw [if_neg hp, Tree.parts, hkinds p hp, hgrow.kind?_eq p hlt]
    rfl

/-- **Parents between the operations.** Where nothing has happened but that nodes of the tree have
been put into the block `up`, the nodes that have not been put there have the parents that they had:
the links are those of the tree and those of the block to what has been put there. -/
theorem parent?_eq (hwf : tree.WellFormed) (hs : edit.Sound tree)
    (hblock : tree.kind? up = some (.stmt (.block (left ++ anchor :: right))))
    (hrelinked : now.Relinked) (hsize : now.size = edit.limit) (hroot : now.root = tree.root)
    (hkinds : ∀ n, n ≠ up → now.kind? n = (edit.atop tree).kind? n)
    (hnow : now.kind? up = some (.stmt (.block (left ++ inserted ++ anchor :: right))))
    (hinserted : ∀ c ∈ inserted, tree.Attached c) {c : NodeId} (hp : tree.Attached p)
    (hc : c ∈ tree.parts p) (hfresh : c ∉ inserted) : now.parent? c = some p := by
  have hparts : tree.parts up = left ++ anchor :: right := Tree.parts_eq_children hblock
  -- no link of the tree is gone
  have hmore : ∀ q d, tree.Attached q → d ∈ tree.parts q → d ∈ now.parts q := by
    intro q d hq hd
    rw [parts_eq (edit.grows_atop tree) (hwf.lt_size hq) hkinds hnow]
    split
    · next hqup =>
      rw [hqup, hparts] at hd
      simp only [List.mem_append, List.mem_cons] at hd ⊢
      tauto
    · exact hd
  -- and the only links that are new are those to what has been put into the block
  have hless : ∀ q d, tree.Attached q → d ∈ now.parts q → d ∈ tree.parts q ∨ d ∈ inserted := by
    intro q d hq hd
    rw [parts_eq (edit.grows_atop tree) (hwf.lt_size hq) hkinds hnow] at hd
    split at hd
    · next hqup =>
      rw [hqup, hparts]
      simp only [List.mem_append, List.mem_cons] at hd ⊢
      tauto
    · exact .inl hd
  -- so nothing hangs in it that did not before
  have hbound : ∀ q, now.Attached q → tree.Attached q := fun q hq =>
    hq.bound tree.Attached (hroot ▸ Tree.attached_root) fun x hx d hd =>
      (hless x d hx hd).elim hx.of_mem (hinserted d)
  refine hrelinked.parent?_of_only_link ?_ ?_ (hmore p c hp hc) fun q hq hcq => ?_
  · exact hsize ▸ (hwf.lt_size (hp.of_mem hc)).trans_le hs.le_limit
  · exact hp.transfer hroot fun q d hq hd _ => hmore q d hq hd
  · have hq := hbound q hq
    exact hwf.linkedOnce.one_linker q p c hq hp ((hless q c hq hcq).resolve_right hfresh) hc

/-- **One more comment** in front of the anchor. -/
theorem insert (hwf : tree.WellFormed) (hs : edit.Sound tree)
    (hblock : tree.kind? up = some (.stmt (.block (left ++ anchor :: right))))
    (hup : tree.Attached up) (h : Inserting tree edit up anchor left inserted right now)
    (hleft : anchor ∉ left) (comment : NodeId)
    (hinserted : ∀ c ∈ inserted ++ [comment], tree.Attached c ∧ c ≠ anchor) :
    ∃ next, now.applyOp (.insertBefore anchor comment) = .ok next ∧
      Inserting tree edit up anchor left (inserted ++ [comment]) right next := by
  have hparts : tree.parts up = left ++ anchor :: right := Tree.parts_eq_children hblock
  have hanchor : anchor ∉ left ++ inserted := by
    simp only [List.mem_append, not_or]
    exact ⟨hleft, fun hmem => (hinserted anchor (by simp [hmem])).2 rfl⟩
  have hparent : now.parent? anchor = some up :=
    h.parent up anchor hup (by simp [hparts]) fun hmem => hanchor (by simp [hmem])
  -- the comment comes behind those before it, next to the anchor
  have hkind : (now.kind? up).map (EditOp.insertBefore anchor comment).change =
      some (.stmt (.block (left ++ (inserted ++ [comment]) ++ anchor :: right))) := by
    rw [h.block]
    simp only [Option.map_some, EditOp.change, Tree.mapBlock, insertInFront_eq hanchor]
    simp
  have hsize : ∀ {c}, tree.Attached c → c.index < now.size := fun hc =>
    h.size_eq ▸ (hwf.lt_size hc).trans_le hs.le_limit
  have hchange : ∀ kind, now.kind? up = some kind →
      ∀ c ∈ ((EditOp.insertBefore anchor comment).change kind).children, c.index < now.size := by
    intro kind hkind' c hc
    rw [hkind', Option.map_some] at hkind
    rw [Option.some.inj hkind] at hc
    -- what is in the block was in it, or is put there
    have hmembers : c ∈ tree.parts up ∨ c ∈ inserted ++ [comment] := by
      simp only [hparts, Kind.children, Stmt.children, List.mem_append, List.mem_cons] at hc ⊢
      tauto
    exact hmembers.elim (fun hmem => hsize (hup.of_mem hmem)) fun hmem => hsize (hinserted c hmem).1
  have hkinds : ∀ n, n ≠ up →
      (now.modifyKind up (EditOp.insertBefore anchor comment).change).relinked.kind? n =
        (edit.atop tree).kind? n := fun n hn => by
    rw [Tree.relinked_kind?, Tree.modifyKind_kind?_of_ne hn, h.kind?_eq n hn]
  have hnext : (now.modifyKind up (EditOp.insertBefore anchor comment).change).relinked.kind? up =
      some (.stmt (.block (left ++ (inserted ++ [comment]) ++ anchor :: right))) := by
    rw [Tree.relinked_kind?, Tree.modifyKind_kind?_self, hkind]
  have hlimit : (now.modifyKind up (EditOp.insertBefore anchor comment).change).relinked.size =
      edit.limit := by simpa using h.size_eq
  exact ⟨_, Tree.applyOp_eq _ h.closed hparent (hsize hup) hchange, {
    closed := (h.closed.modifyKind hchange).relinked
    size_eq := hlimit
    root_eq := h.root_eq
    vars_eq := h.vars_eq
    revision_eq := h.revision_eq
    kind?_eq := hkinds
    block := hnext
    parent :=
      fun p c hp hc hfresh => parent?_eq hwf hs hblock .relinked hlimit h.root_eq hkinds hnext
      (fun c hc => (hinserted c hc).1) hp hc hfresh }⟩

/-- All comments, one after the other. -/
theorem insertAll (hwf : tree.WellFormed) (hs : edit.Sound tree)
    (hblock : tree.kind? up = some (.stmt (.block (left ++ anchor :: right))))
    (hup : tree.Attached up) (h : Inserting tree edit up anchor left inserted right now)
    (hleft : anchor ∉ left) (comments : List NodeId)
    (hinserted : ∀ c ∈ inserted ++ comments, tree.Attached c ∧ c ≠ anchor) :
    ∃ next, (comments.map (EditOp.insertBefore anchor)).foldlM Tree.applyOp now = .ok next ∧
      Inserting tree edit up anchor left (inserted ++ comments) right next := by
  induction comments generalizing now inserted with
  | nil => exact ⟨now, rfl, by simpa using h⟩
  | cons comment comments ih =>
    -- the first comment is inserted, and the others go behind it
    obtain ⟨next, hnext, hnow⟩ := h.insert hwf hs hblock hup hleft comment
      fun c hc => hinserted c (by simp only [List.mem_append, List.mem_cons] at hc ⊢; tauto)
    obtain ⟨last, hlast, hdone⟩ := ih hnow (by simpa using hinserted)
    refine ⟨last, ?_, by simpa using hdone⟩
    rw [List.map_cons, List.foldlM_cons, hnext]
    exact hlast

end Edit.Inserting

end LoopToStream
