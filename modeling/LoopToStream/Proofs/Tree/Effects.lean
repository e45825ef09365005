import LoopToStream.Proofs.Tree.Course

/-!
# Where operations take effect

An edit is checked against the tree that it is committed to, and the anchor of each operation hangs
in that tree. When the operation is carried out, those before it may have cut the anchor off. A node
without a parent counts as the top then: replacing it makes the new node the top of the whole tree,
and removing it or putting something in front of it does nothing.

* `EditOp.TakesEffect` — an operation takes effect where its anchor is.
* `Edit.takesEffect_iff_of_commit` — it does so just if the anchor hangs in the tree at that moment
  and, for operations on blocks, has a block as its parent. For that it is enough that no operation
  before has replaced or removed a node above the anchor (`Edit.KeepsAnchors`) and that the anchor
  is not linked from anywhere else meanwhile (`Edit.Moves`).
* `Edit.removeThenReplace_committed` — the first condition is needed: an edit that removes a
  statement and then replaces the expression in it is let through, and loses the rest of the tree.
-/

namespace LoopToStream

variable {tree now next result changed : Tree} {edit : Edit} {op : EditOp}
  {before after : List EditOp} {a n up : NodeId}

/-! ### Taking effect -/

/-- **An operation takes effect where its anchor is.** Either the anchor is the top, and another
node becomes the top, or the layer of a node in the tree that links the anchor is changed. That is a
block where the operation asks for one. -/
inductive EditOp.TakesEffect (now : Tree) : EditOp → Tree → Prop where
  | top (new : NodeId) :
      TakesEffect now (.replace now.root new) ({ now with root := new } : Tree).relinked
  | layer {op : EditOp} {up : NodeId} (attached : now.Attached up)
      (links : op.anchor ∈ now.parts up) (block : op.needsBlock = true → now.isBlock up = true) :
      TakesEffect now op (now.modifyKind up op.change).relinked

namespace EditOp

/-- Blocks that hold the anchor do not stay as they are. -/
theorem change_block_ne {stmts : List NodeId} (hneeds : op.needsBlock = true)
    (hmem : op.anchor ∈ stmts) : op.change (.stmt (.block stmts)) ≠ .stmt (.block stmts) := by
  intro heq
  cases op with
  | replace old new => cases hneeds
  | remove stmt =>
    -- the anchor would have been filtered out
    have hsame : stmts.filter (· ≠ stmt) = stmts := by
      simpa [change, Tree.mapBlock] using heq
    rw [← hsame] at hmem
    simp [anchor] at hmem
  | insertBefore anchor stmt =>
    have hsame : Tree.insertInFront anchor stmt stmts = stmts := by
      simpa only [change, Tree.mapBlock, Kind.stmt.injEq, Stmt.block.injEq] using heq
    have hmem : anchor ∈ stmts := hmem
    -- a block with one statement more is another one
    have hlength := congrArg List.length hsame
    rw [Tree.insertInFront, if_pos (by simpa using hmem), List.length_append,
      List.length_cons] at hlength
    have hsplit : (stmts.takeWhile (· ≠ anchor) ++ stmts.dropWhile (· ≠ anchor)).length =
        stmts.length := by
      rw [List.takeWhile_append_dropWhile]
    rw [List.length_append] at hsplit
    omega

/-- Nothing but blocks is changed by operations on blocks. -/
theorem change_of_not_block (hneeds : op.needsBlock = true) {kind : Kind NodeId}
    (hno : kind.stmt?.any Stmt.isBlock = false) : op.change kind = kind := by
  cases op with
  | replace old new => cases hneeds
  | remove stmt =>
    rcases mapBlock_cases (fun stmts => stmts.filter (· ≠ stmt)) kind with
      ⟨stmts, rfl, -⟩ | ⟨-, hchange⟩
    · cases hno
    · exact hchange
  | insertBefore anchor stmt =>
    rcases mapBlock_cases (Tree.insertInFront anchor stmt) kind with ⟨stmts, rfl, -⟩ | ⟨-, hchange⟩
    · cases hno
    · exact hchange

namespace TakesEffect

/-- The anchor hangs in the tree then. -/
theorem attached (h : op.TakesEffect now next) : now.Attached op.anchor := by
  cases h with
  | top new => exact Tree.attached_root
  | layer attached links block => exact attached.of_mem links

/-- An operation on a block has found one. -/
theorem exists_block (h : op.TakesEffect now next) (hneeds : op.needsBlock = true) :
    ∃ up stmts, now.kind? up = some (.stmt (.block stmts)) ∧ op.anchor ∈ stmts ∧ now.Attached up ∧
      next.kind? up = some (op.change (.stmt (.block stmts))) := by
  cases h with
  | top new => cases hneeds
  | @layer _ up attached links block =>
    obtain ⟨stmt, hstmt, hshape⟩ := (Option.any_eq_true _ _).1 (block hneeds)
    -- the operation asks for a block, so the layer is one
    obtain ⟨stmts, rfl⟩ : ∃ stmts, stmt = .block stmts := by
      cases stmt <;> first | exact ⟨_, rfl⟩ | cases hshape
    have hkind := Tree.stmt?_eq_some.1 hstmt
    refine ⟨up, stmts, hkind, ?_, attached, ?_⟩
    · rwa [Tree.parts_eq_children hkind] at links
    · rw [Tree.relinked_kind?, Tree.modifyKind_kind?_self, hkind, Option.map_some]

/-- **An operation takes effect** if its anchor hangs in the tree, in a block where it asks for one.
-/
theorem of_applyOp (hclosed : now.Closed) (hset : now.ParentSet op.anchor)
    (hattached : now.Attached op.anchor)
    (hblock : op.needsBlock = true → (now.parent? op.anchor).any now.isBlock = true)
    (happly : now.applyOp op = .ok next) : op.TakesEffect now next := by
  -- an anchor that hangs in the tree without a parent is the top
  rcases Tree.applyOp_cases (hclosed.lt_size hattached)
    (fun up hup => hclosed.lt_size (hset.links up hup).1) happly with ⟨hnone, rfl⟩ | ⟨up, hup, rfl⟩
  · have hroot := hset.eq_root hattached hnone
    cases op with
    | replace old new =>
      obtain rfl : old = now.root := hroot
      exact .top new
    | remove stmt => simp [hnone, needsBlock] at hblock
    | insertBefore anchor stmt => simp [hnone, needsBlock] at hblock
  · obtain ⟨hattached, hlinks⟩ := hset.links up hup
    exact .layer hattached hlinks fun hneeds => by simpa [hup] using hblock hneeds

end TakesEffect

end EditOp

namespace Edit.Course

variable (hwf : tree.WellFormed) (h : edit.Accepted tree changed)
  (hcourse : Course tree edit before now) (hop : op ∈ edit.ops) (happly : now.applyOp op = .ok next)
include hwf h hcourse hop happly

/-- What the operation has done in the course of the edit. -/
theorem cases_applyOp :
    (now.parent? op.anchor = none ∧ next = (now.withTop op).relinked) ∨
      ∃ up, now.parent? op.anchor = some up ∧ next = (now.modifyKind up op.change).relinked := by
  have hattached := (h.allowed op hop).attached
  have hset := hcourse.parentSet op.anchor hattached
  exact Tree.applyOp_cases (hcourse.lt_size hwf h hattached)
    (fun up hup => hcourse.closed.lt_size (hset.links up hup).1) happly

/-- **When an operation takes effect.** -/
theorem takesEffect_iff : op.TakesEffect now next ↔ now.Attached op.anchor ∧
    (op.needsBlock = true → (now.parent? op.anchor).any now.isBlock = true) := by
  have hset := hcourse.parentSet op.anchor (h.allowed op hop).attached
  constructor
  · refine fun heffect => ⟨heffect.attached, fun hneeds => ?_⟩
    -- an effect on a block is seen in a block that holds the anchor
    obtain ⟨up, stmts, hkind, hmem, hup, hnext⟩ := heffect.exists_block hneeds
    have hlinks : op.anchor ∈ now.parts up := by
      rwa [Tree.parts_eq_children hkind]
    rcases hcourse.cases_applyOp hwf h hop happly with ⟨hnone, -⟩ | ⟨parent, hparent, rfl⟩
    · exact absurd hlinks (hset.unlinked hnone up hup)
    · rw [hparent, Option.any_some]
      by_contra hno
      -- if the parent were no block, nothing would have changed
      have hsame : (now.modifyKind parent op.change).relinked.kind? up = now.kind? up := by
        rw [Tree.relinked_kind?, Tree.modifyKind_kind?]
        split
        · next heq =>
          rw [← heq, Tree.isBlock, Tree.stmt?, hkind] at hno
          exact absurd rfl hno
        · rfl
      rw [hsame, hkind] at hnext
      exact EditOp.change_block_ne hneeds hmem (Option.some.inj hnext).symm
  · rintro ⟨hattached, hblock⟩
    exact .of_applyOp hcourse.closed hset hattached hblock happly

/-- **Only the top gives way at the top**, where the anchor hangs in the tree. -/
theorem exists_replace_of_root_ne (hattached : now.Attached op.anchor)
    (hne : next.root ≠ now.root) :
    ∃ new, op = .replace now.root new := by
  have hset := hcourse.parentSet op.anchor (h.allowed op hop).attached
  rcases hcourse.cases_applyOp hwf h hop happly with ⟨hnone, rfl⟩ | ⟨up, hup, rfl⟩
  · have hroot := hset.eq_root hattached hnone
    cases op with
    | replace old new => exact ⟨new, congrArg (EditOp.replace · new) hroot⟩
    | remove stmt => exact absurd rfl hne
    | insertBefore anchor stmt => exact absurd rfl hne
  · exact absurd rfl hne

/-- An anchor that has been cut off counts as the top. -/
theorem eq_withTop_of_cut (hcut : ¬ now.Attached op.anchor) : next = (now.withTop op).relinked := by
  have hset := hcourse.parentSet op.anchor (h.allowed op hop).attached
  rcases hcourse.cases_applyOp hwf h hop happly with ⟨-, hnext⟩ | ⟨up, hup, -⟩
  · exact hnext
  · obtain ⟨hattached, hlinks⟩ := hset.links up hup
    exact absurd (hattached.of_mem hlinks) hcut

end Edit.Course

/-! ### Anchors that stay -/

namespace Edit

/-- No operation comes after one that has replaced or removed a node above its anchor. -/
def KeepsAnchors (tree : Tree) (ops : List EditOp) : Prop :=
  ops.Pairwise fun earlier later =>
    earlier.consumesAnchor = true → ¬ tree.StrictlyReaches earlier.anchor later.anchor

/-- A node is put somewhere by one of the operations, or is linked by a node that did not hang in
the tree. -/
def Moves (edit : Edit) (tree : Tree) (ops : List EditOp) (id : NodeId) : Prop :=
  (∃ op ∈ ops, op.placed? = some id) ∨ ∃ p, ¬ tree.Attached p ∧ id ∈ (edit.atop tree).parts p

/-- Nothing at or above an anchor has been replaced or removed before. -/
theorem not_reaches_anchor (h : edit.Accepted tree changed)
    (hops : edit.ops = before ++ op :: after) (hkeeps : KeepsAnchors tree (before ++ [op])) :
    ∀ o ∈ before, o.consumesAnchor = true → ¬ tree.Reaches o.anchor op.anchor := by
  intro o ho hconsumes hreaches
  have honce := h.once
  rw [hops] at honce
  rcases Tree.reaches_iff_eq_or_strictly.1 hreaches with heq | hstrict
  · exact (List.pairwise_append.1 honce).2.2 o ho op (by simp) hconsumes heq.symm
  · exact (List.pairwise_append.1 hkeeps).2.2 o ho op (by simp) hconsumes hstrict

namespace Course

/-- **An anchor stays in the tree** while nothing at or above it is replaced or removed and the top
is the one of before. -/
theorem attached_of_way (hwf : tree.WellFormed) (hcourse : Course tree edit before now)
    (hroot : now.root = tree.root) (ha : tree.Attached a)
    (hway : ∀ o ∈ before, o.consumesAnchor = true → ¬ tree.Reaches o.anchor a) :
    now.Attached a := by
  refine ha.transfer hroot fun p c hp hc hca => ?_
  refine hcourse.kept c (fun o ho hconsumes heq => hway o ho hconsumes (heq ▸ hca)) p ?_
  rwa [((edit.grows_atop tree).sameBelow (hwf.grounded hp)).parts_eq]

/-- **The top stays** while it is not replaced and all operations take place in the tree. By
induction on the operations, from the end. -/
theorem root_eq (hwf : tree.WellFormed) (h : edit.Accepted tree changed)
    (hops : edit.ops = before ++ after) (hkeeps : KeepsAnchors tree before)
    (htop : ∀ o ∈ before, o.consumesAnchor = true → o.anchor ≠ tree.root)
    (hfold : before.foldlM Tree.applyOp (edit.atop tree) = .ok now) : now.root = tree.root := by
  induction before using List.reverseRecOn generalizing now after with
  | nil =>
    cases hfold
    rfl
  | append_singleton before op ih =>
    rw [List.foldlM_append] at hfold
    obtain ⟨mid, hmid, hlast⟩ := bind_eq_ok.1 hfold
    rw [List.foldlM_cons] at hlast
    obtain ⟨last, happly, hlast⟩ := bind_eq_ok.1 hlast
    cases hlast
    rw [List.append_assoc] at hops
    have hbefore : ∀ o ∈ before, o ∈ edit.ops := fun o ho => by simp [hops, ho]
    have hop : op ∈ edit.ops := by simp [hops]
    -- up to the last operation the top has stayed, and so the last anchor hangs in the tree
    have hcourse := of_foldlM hwf h hbefore hmid
    have hroot := ih hops (List.pairwise_append.1 hkeeps).1 (fun o ho => htop o (by simp [ho])) hmid
    have hattached : mid.Attached op.anchor := hcourse.attached_of_way hwf hroot
      (h.allowed op hop).attached (not_reaches_anchor h hops hkeeps)
    by_contra hne
    rw [← hroot] at hne
    obtain ⟨new, rfl⟩ := hcourse.exists_replace_of_root_ne hwf h hop happly hattached hne
    exact htop (.replace mid.root new) (by simp) rfl hroot

/-- **Where anchors are kept**, each operation meets its anchor in the tree. -/
theorem attached_anchor (hwf : tree.WellFormed) (h : edit.Accepted tree changed)
    (hops : edit.ops = before ++ op :: after) (hkeeps : KeepsAnchors tree (before ++ [op]))
    (hfold : before.foldlM Tree.applyOp (edit.atop tree) = .ok now) :
    now.root = tree.root ∧ now.Attached op.anchor := by
  have hbefore : ∀ o ∈ before, o ∈ edit.ops := fun o ho => by simp [hops, ho]
  have hallowed := h.allowed op (by simp [hops])
  have hway := not_reaches_anchor h hops hkeeps
  have hroot : now.root = tree.root :=
    root_eq hwf h hops (List.pairwise_append.1 hkeeps).1
      (fun o ho hconsumes heq => hway o ho hconsumes (heq ▸ hallowed.attached)) hfold
  exact ⟨hroot, (of_foldlM hwf h hbefore hfold).attached_of_way hwf hroot hallowed.attached hway⟩

/-- What is not put anywhere is linked by the node that linked it before, if at all. -/
theorem mem_parts_of_not_moved (hwf : tree.WellFormed) (hcourse : Course tree edit before now)
    (hn : ¬ edit.Moves tree before n) {p : NodeId} (hmem : n ∈ now.parts p) :
    tree.Attached p ∧ n ∈ tree.parts p := by
  obtain ⟨hplaced, hstaged⟩ := not_or.1 hn
  -- links to it have not become more, at any node
  have hcount := hcourse.fewer n (fun o ho hplaced' => hplaced ⟨o, ho, hplaced'⟩) p
  have hold : n ∈ (edit.atop tree).parts p :=
    List.count_pos_iff.1 ((List.count_pos_iff.2 hmem).trans_le hcount)
  have hp : tree.Attached p := by
    by_contra hno
    exact hstaged ⟨p, hno, hold⟩
  rw [((edit.grows_atop tree).sameBelow (hwf.grounded hp)).parts_eq] at hold
  exact ⟨hp, hold⟩

/-- An anchor that is not put anywhere still has the parent that it had. -/
theorem parent?_eq_of_not_moved (hwf : tree.WellFormed) (hcourse : Course tree edit before now)
    (ha : tree.Attached a) (hroot : now.root = tree.root) (hattached : now.Attached a)
    (hmoves : ¬ edit.Moves tree before a) : now.parent? a = tree.parent? a := by
  have hset := hcourse.parentSet a ha
  cases hparent : now.parent? a with
  | none =>
    rw [hset.eq_root hattached hparent, hroot, hwf.parent?_root]
  | some up =>
    obtain ⟨hup, hmem⟩ := hcourse.mem_parts_of_not_moved hwf hmoves (hset.links up hparent).2
    exact (hwf.parent?_of_mem hup hmem).symm

end Course

/-- **Operations take effect where their anchors are**, as long as these hang in the tree. For each
operation of an edit that is let through: it takes effect just if its anchor hangs in the tree at
that moment and, for an operation on a block, a block is its parent. While anchors hang in the tree,
the top changes only by being replaced. An anchor that has been cut off counts as the top.

An anchor hangs in the tree if no operation before has replaced or removed a node above it; if it is
linked from nowhere else either, it has the parent that it had, and the operation takes effect. The
same node is never replaced or removed and then used as an anchor again. -/
theorem takesEffect_iff_of_commit (hwf : tree.WellFormed) (hcommit : tree.commit edit = .ok result)
    (hops : edit.ops = before ++ op :: after) :
    ∃ now next changed, before.foldlM Tree.applyOp (edit.atop tree) = .ok now ∧
      now.applyOp op = .ok next ∧ after.foldlM Tree.applyOp next = .ok changed ∧
      result = { changed with revision := changed.revision + 1 } ∧
      (op.TakesEffect now next ↔ now.Attached op.anchor ∧
        (op.needsBlock = true → (now.parent? op.anchor).any now.isBlock = true)) ∧
      (now.Attached op.anchor → next.root ≠ now.root → ∃ new, op = .replace now.root new) ∧
      (¬ now.Attached op.anchor → next = (now.withTop op).relinked) ∧
      (KeepsAnchors tree (before ++ [op]) → now.root = tree.root ∧ now.Attached op.anchor ∧
        (¬ edit.Moves tree before op.anchor →
          now.parent? op.anchor = tree.parent? op.anchor ∧ op.TakesEffect now next)) ∧
      ∀ earlier ∈ before, earlier.consumesAnchor = true → earlier.anchor ≠ op.anchor := by
  obtain ⟨changed, h, hresult⟩ := accepted_of_commit hwf hcommit
  have hop : op ∈ edit.ops := by simp [hops]
  have hcarried := h.carried
  rw [hops, List.foldlM_append] at hcarried
  obtain ⟨now, hnow, hrest⟩ := bind_eq_ok.1 hcarried
  rw [List.foldlM_cons] at hrest
  obtain ⟨next, hnext, hafter⟩ := bind_eq_ok.1 hrest
  -- what the operations so far have left is known by its course
  have hcourse : Course tree edit before now :=
    .of_foldlM hwf h (fun o ho => by simp [hops, ho]) hnow
  have hallowed := h.allowed op hop
  have hiff := hcourse.takesEffect_iff hwf h hop hnext
  refine ⟨now, next, changed, hnow, hnext, hafter, hresult, hiff,
    hcourse.exists_replace_of_root_ne hwf h hop hnext, hcourse.eq_withTop_of_cut hwf h hop hnext,
    fun hkeeps => ?_, ?_⟩
  · obtain ⟨hroot, hattached⟩ := Course.attached_anchor hwf h hops hkeeps hnow
    refine ⟨hroot, hattached, fun hmoves => ?_⟩
    have hparent := hcourse.parent?_eq_of_not_moved hwf hallowed.attached hroot hattached hmoves
    refine ⟨hparent, hiff.2 ⟨hattached, fun hneeds => ?_⟩⟩
    -- the block is one of the tree, and blocks stay blocks
    obtain ⟨up, hup, hblock⟩ := (Option.any_eq_true _ _).1 (hallowed.in_block hneeds)
    rw [hparent, hup, Option.any_some, hcourse.isBlock_eq]
    have hlt := hwf.lt_size (hwf.parent?_eq_some.1 hup).1
    rw [Tree.isBlock, Tree.stmt?, (edit.grows_atop tree).kind?_eq up hlt]
    exact hblock
  · have honce := h.once
    rw [hops] at honce
    exact fun earlier hearlier => (List.pairwise_append.1 honce).2.2 earlier hearlier op (by simp)

/-- The block `{ a; b; }`. -/
def twoStatements : Tree where
  nodes := #[
    ⟨.expr (.name "a" none), some ⟨1⟩, Tree.placeOf 0⟩,
    ⟨.stmt (.expr ⟨0⟩), some ⟨4⟩, Tree.placeOf 1⟩,
    ⟨.expr (.name "b" none), some ⟨3⟩, Tree.placeOf 2⟩,
    ⟨.stmt (.expr ⟨2⟩), some ⟨4⟩, Tree.placeOf 3⟩,
    ⟨.stmt (.block [⟨1⟩, ⟨3⟩]), none, Tree.placeOf 4⟩]
  vars := #[]
  root := ⟨4⟩
  scope := .unknown
  revision := 0

/-- A comment is put in front of `b;`, and `a;` is removed. -/
def insertThenRemove : Edit :=
  ⟨5, 0, #[⟨.comment "// b", none, Tree.placeOf 5⟩], [.insertBefore ⟨3⟩ ⟨5⟩, .remove ⟨1⟩]⟩

/-- Putting a comment in front of `b;` does not keep `a;` from being removed. -/
theorem takesEffect_insertThenRemove :
    ∃ now next result, twoStatements.commit insertThenRemove = .ok result ∧
      (EditOp.remove ⟨1⟩).TakesEffect now next ∧ next.root = result.root ∧
      result.kind? ⟨4⟩ = some (.stmt (.block [⟨5⟩, ⟨3⟩])) := by
  have hwf : twoStatements.WellFormed := .of_isInOrder (by decide)
  obtain ⟨result, hcommit, hkind⟩ : ∃ result, twoStatements.commit insertThenRemove = .ok result ∧
      result.kind? ⟨4⟩ = some (.stmt (.block [⟨5⟩, ⟨3⟩])) := ⟨_, by cbv, by cbv⟩
  have hops : insertThenRemove.ops = [.insertBefore ⟨3⟩ ⟨5⟩] ++ .remove ⟨1⟩ :: [] := rfl
  obtain ⟨now, next, changed, -, -, hafter, hresult, -, -, -, hkeeps, -⟩ :=
    takesEffect_iff_of_commit hwf hcommit hops
  cases hafter
  -- the statement is linked from its block only
  have hmoves : ¬ insertThenRemove.Moves twoStatements [.insertBefore ⟨3⟩ ⟨5⟩] ⟨1⟩ := by
    rintro (⟨op, hop, hplaced⟩ | ⟨p, hp, hlinks⟩)
    · simp_all [EditOp.placed?]
    · have hlt := Tree.lt_size_of_mem_parts hlinks
      have hblock : ∀ i < 6, ⟨1⟩ ∈ (insertThenRemove.atop twoStatements).parts ⟨i⟩ → i = 4 := by
        decide
      have hp4 : p = ⟨4⟩ := by
        cases p
        exact congrArg NodeId.mk (hblock _ hlt hlinks)
      exact hp (hp4 ▸ Tree.attached_root)
  obtain ⟨-, -, heffect⟩ := hkeeps (by simp [KeepsAnchors, EditOp.consumesAnchor])
  exact ⟨now, next, result, hcommit, (heffect hmoves).2, by rw [hresult], hkind⟩

/-- The statement `a;` is removed, and then `a` is replaced by `c`. -/
def removeThenReplace : Edit :=
  ⟨5, 0, #[⟨.expr (.name "c" none), none, Tree.placeOf 5⟩], [.remove ⟨1⟩, .replace ⟨0⟩ ⟨5⟩]⟩

/-- **An edit that cuts an anchor off is let through.** The name `a` does not hang in the tree any
more when it is replaced, and `c` becomes the top of a tree in which nothing else is left. -/
theorem removeThenReplace_committed :
    twoStatements.WellFormed ∧ ∃ now result,
      twoStatements.commit removeThenReplace = .ok result ∧ result.WellFormed ∧
      [EditOp.remove ⟨1⟩].foldlM Tree.applyOp (removeThenReplace.atop twoStatements) = .ok now ∧
      ¬ now.Attached ⟨0⟩ ∧ now.root = ⟨4⟩ ∧ result.root = ⟨5⟩ := by
  refine ⟨.of_isInOrder (by decide), _, _, by cbv, ?_, by cbv, ?_, by cbv, by cbv⟩
  · exact .of_isInOrder (by decide)
  · rw [Tree.attached_iff_mem_preorder]
    decide

end Edit

end LoopToStream
