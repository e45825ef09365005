import LoopToStream.Proofs.Tree.Parented

/-!
# Putting nodes in place

What an edit does that puts nodes of the tree in front of a statement and new code in its place, on
every tree whose parents are set.

* `Tree.Widened` — what is said of the tree while nodes are put in front of the statement: nothing
  hangs in the tree that did not hang there before.
* `Tree.Placed` — what is said once new code has taken the place of the statement: it hangs in the
  tree, and so does what it links.
* `Edit.exists_commit_replace` — an edit that replaces one node is let through where the node hangs
  in the tree and nothing is missing below what the new code links.
-/

namespace LoopToStream

variable {first now next tree : Tree} {edit : Edit} {op : EditOp} {a c n new old p : NodeId}

namespace Tree

/-! ### Nothing missing -/

/-- Nothing is missing at or below a node. -/
def Whole (tree : Tree) (c : NodeId) : Prop := ∀ n, tree.Reaches c n → n.index < tree.size

theorem Whole.of_mem (h : tree.Whole p) (hc : c ∈ tree.parts p) : tree.Whole c :=
  fun n hn => h n (hn.head hc)

/-! ### In front of a statement -/

/-- **Nodes of the tree have been linked once more**, and nothing else has changed about what hangs
in the tree. -/
structure Widened (first now : Tree) : Prop where
  parented : now.Parented
  root_eq : now.root = first.root
  size_eq : now.size = first.size
  /-- What does not hang in the tree is as it was. -/
  apart : ∀ n, ¬ first.Attached n → now.kind? n = first.kind? n
  inside : ∀ p, first.Attached p → ∀ c ∈ now.parts p, first.Attached c
  kept : ∀ p, ∀ c ∈ first.parts p, c ∈ now.parts p

/-- What can be reached does not depend on the parents. -/
theorem relinked_reaches : now.relinked.Reaches a n ↔ now.Reaches a n := by
  have hparts : now.relinked.parts = now.parts := funext fun _ => relinked_parts
  rw [Reaches, Reaches, hparts]

/-- **An operation on a tree whose parents are set**, with the anchor in the tree: one layer of the
tree has been changed, or the anchor was the top. -/
theorem Parented.applyOp_cases (h : now.Parented) (ha : now.Attached op.anchor)
    (happly : now.applyOp op = .ok next) :
    next.Parented ∧ ((op.anchor = now.root ∧ next = (now.withTop op).relinked) ∨
      ∃ up, now.Attached up ∧ op.anchor ∈ now.parts up ∧
        next = (now.modifyKind up op.change).relinked) := by
  have hset := h.parentSet _ (h.known _ ha)
  obtain ⟨changed, -, hrelink⟩ := bind_eq_ok.1 happly
  refine ⟨parented_of_relink hrelink, ?_⟩
  rcases Tree.applyOp_cases (h.known _ ha) (fun up hup => h.known up (hset.links up hup).1)
      happly with
    ⟨hno, hnext⟩ | ⟨up, hup, hnext⟩
  · exact .inl ⟨hset.eq_root ha hno, hnext⟩
  · exact .inr ⟨up, (hset.links up hup).1, (hset.links up hup).2, hnext⟩

/-- The parts after a layer has been changed. -/
theorem parts_modifyKind_cases (up p : NodeId) (f : Kind NodeId → Kind NodeId) :
    (now.modifyKind up f).parts p = now.parts p ∨ (p = up ∧ ∃ kind, now.kind? up = some kind ∧
      now.parts up = kind.children ∧ (now.modifyKind up f).parts up = (f kind).children) := by
  by_cases heq : p = up
  · subst heq
    cases hkind : now.kind? p with
    | none => exact .inl (by simp [parts, hkind])
    | some kind =>
      exact .inr ⟨rfl, kind, rfl, parts_eq_children hkind, by simp [parts, hkind]⟩
  · exact .inl (by simp [parts, heq])

namespace Widened

theorem refl (h : first.Parented) : first.Widened first :=
  ⟨h, rfl, rfl, fun _ _ => rfl, fun _ hp _ hc => hp.of_mem hc, fun _ _ hc => hc⟩

variable (h : first.Widened now)
include h

theorem attached_iff : now.Attached n ↔ first.Attached n := by
  constructor
  · intro hn
    have hroot : first.Attached now.root := h.root_eq ▸ attached_root
    exact hn.bound first.Attached hroot h.inside
  · intro hn
    exact hn.transfer h.root_eq fun p c _ hc _ => h.kept p c hc

/-- **A node of the tree is put in front of a statement.** -/
theorem insertBefore (ha : first.Attached a) (hc : first.Attached c)
    (happly : now.applyOp (.insertBefore a c) = .ok next) : first.Widened next := by
  have hanchor : now.Attached (EditOp.insertBefore a c).anchor := h.attached_iff.2 ha
  have hkeeps : ∀ x, (EditOp.insertBefore a c).consumesAnchor = true →
      (EditOp.insertBefore a c).anchor ≠ x := fun x hno => by cases hno
  obtain ⟨hparented, hcases⟩ := h.parented.applyOp_cases hanchor happly
  rcases hcases with ⟨-, rfl⟩ | ⟨up, hup, -, rfl⟩
  · -- nothing is in front of the top
    have hsame : now.withTop (.insertBefore a c) = now := rfl
    rw [hsame] at hparented ⊢
    exact ⟨hparented, h.root_eq, by simpa using h.size_eq, by simpa using h.apart,
      by simpa using h.inside, by simpa using h.kept⟩
  · have hup : first.Attached up := h.attached_iff.1 hup
    refine ⟨hparented, h.root_eq, by simpa using h.size_eq, fun n hn => ?_, fun p hp x hx => ?_,
      fun p x hx => ?_⟩
    · -- only the layer of the parent is changed
      have hne : n ≠ up := fun heq => hn (heq ▸ hup)
      simpa [hne] using h.apart n hn
    · rw [relinked_parts] at hx
      rcases parts_modifyKind_cases up p _ with hsame | ⟨rfl, kind, -, hold, hnew⟩
      · exact h.inside p hp x (hsame ▸ hx)
      · rw [hnew] at hx
        -- it links what it linked, and the node of the tree that is put there
        rcases EditOp.mem_or_placed_of_mem_change hx with hmem | hplaced
        · exact h.inside p hp x (hold ▸ hmem)
        · cases hplaced
          exact hc
    · have hmem := h.kept p x hx
      rw [relinked_parts]
      rcases parts_modifyKind_cases up p (EditOp.insertBefore a c).change with
        hsame | ⟨rfl, kind, -, hold, hnew⟩
      · rwa [hsame]
      · rw [hold] at hmem
        rw [hnew]
        exact EditOp.mem_change hmem (hkeeps x)

/-- Several of them, one after the other. -/
theorem insertAll (ha : first.Attached a) {ids : List NodeId} (hids : ∀ c ∈ ids, first.Attached c)
    (hfold : (ids.map (EditOp.insertBefore a)).foldlM Tree.applyOp now = .ok next) :
    first.Widened next := by
  induction ids generalizing now with
  | nil =>
    cases hfold
    exact h
  | cons c ids ih =>
    rw [List.map_cons, List.foldlM_cons] at hfold
    obtain ⟨mid, hmid, hrest⟩ := bind_eq_ok.1 hfold
    exact ih (h.insertBefore ha (hids c (by simp)) hmid) (fun x hx => hids x (by simp [hx])) hrest

end Widened

/-! ### In the place of a statement -/

/-- **New code has taken a place in the tree.** It is linked by what hung in the tree before, and
what did not hang there is as it was. -/
structure Placed (first now : Tree) (new : NodeId) : Prop where
  parented : now.Parented
  size_eq : now.size = first.size
  attached : now.Attached new
  apart : ∀ n, ¬ first.Attached n → now.kind? n = first.kind? n
  inside : ∀ p, first.Attached p → ∀ c ∈ now.parts p, first.Attached c ∨ c = new

/-- What leads to a node is not changed by changing the node. -/
theorem Reaches.of_modifyKind {up : NodeId} {f : Kind NodeId → Kind NodeId} (h : now.Reaches a up) :
    (now.modifyKind up f).Reaches a up := by
  induction h using Relation.ReflTransGen.head_induction_on with
  | refl => exact .refl _
  | @head p c hc _ ih =>
    by_cases heq : p = up
    · subst heq
      exact .refl _
    · refine Relation.ReflTransGen.head ?_ ih
      simpa [parts, heq] using hc

/-- **New code takes the place of a node of the tree.** -/
theorem Widened.replace (h : first.Widened now) (ha : first.Attached a)
    (happly : now.applyOp (.replace a new) = .ok next) : first.Placed next new := by
  have hanchor : now.Attached (EditOp.replace a new).anchor := h.attached_iff.2 ha
  obtain ⟨hparented, hcases⟩ := h.parented.applyOp_cases hanchor happly
  rcases hcases with ⟨-, rfl⟩ | ⟨up, hup, hlinks, rfl⟩
  · -- the top is replaced, and no layer changes
    refine ⟨hparented, by simpa using h.size_eq, attached_root, fun n hn => ?_, fun p hp c hc => ?_⟩
    · rw [relinked_kind?, withTop_kind?]
      exact h.apart n hn
    · have hparts : (now.withTop (.replace a new)).parts p = now.parts p := by
        rw [parts, withTop_kind?, parts]
      rw [relinked_parts, hparts] at hc
      exact .inl (h.inside p hp c hc)
  · have hupFirst : first.Attached up := h.attached_iff.1 hup
    -- the way to the changed layer is still there, and from it one step leads on
    have hway : (now.modifyKind up (EditOp.replace a new).change).relinked.Attached up :=
      relinked_reaches.2 (Reaches.of_modifyKind hup)
    refine ⟨hparented, by simpa using h.size_eq, ?_, fun n hn => ?_, fun p hp c hc => ?_⟩
    · refine hway.of_mem ?_
      rw [relinked_parts]
      obtain ⟨kind, hkind⟩ := exists_kind_of_lt (lt_size_of_mem_parts hlinks)
      rw [parts_eq_children hkind] at hlinks
      have hmem : new ∈ ((EditOp.replace a new).change kind).children := by
        rw [EditOp.change, Kind.children_map]
        exact List.mem_map.2 ⟨a, hlinks, if_pos rfl⟩
      simpa [parts, hkind] using hmem
    · -- only the layer of the parent is changed
      have hne : n ≠ up := fun heq => hn (heq ▸ hupFirst)
      simpa [hne] using h.apart n hn
    · rw [relinked_parts] at hc
      rcases parts_modifyKind_cases up p _ with hsame | ⟨rfl, kind, -, hold, hnew⟩
      · exact .inl (h.inside p hp c (hsame ▸ hc))
      · rw [hnew] at hc
        rcases EditOp.mem_or_placed_of_mem_change hc with hmem | hplaced
        · exact .inl (h.inside p hp c (hold ▸ hmem))
        · cases hplaced
          exact .inr rfl

/-- **Nothing is missing** below what hung in the tree before: all of it hung there before, or hangs
there now. -/
theorem Placed.whole (h : first.Placed now new) (hfirst : first.Parented) (ha : first.Attached a) :
    now.Whole a := by
  intro n hn
  have hbound : first.Attached n ∨ now.Attached n := by
    induction hn with
    | refl => exact .inl ha
    | @tail p c _ hc ih =>
      rcases ih with hp | hp
      · -- a link is an old one, or leads to the node that has been placed
        rcases h.inside p hp c hc with hc | rfl
        · exact .inl hc
        · exact .inr h.attached
      · exact .inr (hp.of_mem hc)
  rcases hbound with hn | hn
  · exact h.size_eq ▸ hfirst.known n hn
  · exact h.parented.known n hn

end Tree

/-! ### Replacing a node of the tree -/

namespace Edit

/-- What an edit links that stands in the table already is whole. -/
def LinksWhole (edit : Edit) (tree : Tree) : Prop :=
  ∀ node ∈ edit.staged.toList, ∀ c ∈ node.kind.children,
    c.index < edit.limit ∧ (c.index < tree.size → tree.Whole c)

section

variable (h : tree.Parented) (hold : tree.Attached old) (hbase : edit.baseSize = tree.size)
  (hnew : tree.size ≤ new.index ∧ new.index < edit.limit) (hwhole : edit.LinksWhole tree)
include h hold hbase hnew hwhole

/-- **Carrying out the replacement** meets nothing that is missing: what can be reached afterwards
is whole in the tree or has been staged. -/
theorem exists_applyOp_replace :
    ∃ next, (edit.atop tree).applyOp (.replace old new) = .ok next := by
  have hsize : (edit.atop tree).size = edit.limit := size_atop_of_base hbase
  have hle : tree.size ≤ edit.limit := hsize ▸ (edit.grows_atop tree).size_le
  have hlt : old.index < tree.size := h.known old hold
  have hroot : tree.Whole tree.root := fun n hn => h.known n hn
  -- the layers of the longer table lead to what is whole or staged
  have hparts : ∀ p, tree.Whole p ∨ (tree.size ≤ p.index ∧ p.index < edit.limit) →
      ∀ c ∈ (edit.atop tree).parts p,
        tree.Whole c ∨ (tree.size ≤ c.index ∧ c.index < edit.limit) := by
    intro p hp c hc
    obtain ⟨kind, hkind⟩ := Tree.exists_kind_of_lt (Tree.lt_size_of_mem_parts hc)
    rw [Tree.parts_eq_children hkind] at hc
    rcases hp with hp | ⟨hp, -⟩
    · rw [(edit.grows_atop tree).kind?_eq p (hp p (.refl _))] at hkind
      rw [← Tree.parts_eq_children hkind] at hc
      exact .inl (hp.of_mem hc)
    · obtain ⟨node, hnode, rfl⟩ := mem_staged_of_kind? hp hkind
      obtain ⟨hlimit, hc⟩ := hwhole node hnode c hc
      by_cases hold : c.index < tree.size
      · exact .inl (hc hold)
      · exact .inr ⟨Nat.le_of_not_lt hold, hlimit⟩
  -- so relinking succeeds, whatever the links lead to
  have hrelink : ∀ changed : Tree, changed.size = edit.limit →
      (tree.Whole changed.root ∨
      (tree.size ≤ changed.root.index ∧ changed.root.index < edit.limit)) →
      (∀ p, ∀ c ∈ changed.parts p, c ∈ (edit.atop tree).parts p ∨ c = new) →
      ∃ next, changed.relink = .ok next := by
    intro changed hchanged htop hlinks
    refine ⟨_, Tree.relink_eq_ok fun n hn => ?_⟩
    have hbound := Tree.Attached.bound
      (fun n => tree.Whole n ∨ (tree.size ≤ n.index ∧ n.index < edit.limit)) htop
      (fun p hp c hc => (hlinks p c hc).elim (hparts p hp c) fun heq => .inr (heq ▸ hnew)) hn
    rw [hchanged]
    rcases hbound with hn | ⟨-, hn⟩
    · exact (hn n (.refl _)).trans_le hle
    · exact hn
  have hanchor : old.index < (edit.atop tree).size := hlt.trans_le (hsize ▸ hle)
  have hparent : (edit.atop tree).parent? old = tree.parent? old := by
    rw [Tree.parent?, Tree.parent?, atop_node?_of_lt hlt]
  rw [Tree.applyOp]
  cases hup : tree.parent? old with
  | none =>
    -- the top is exchanged for a staged node
    have hchange : (edit.atop tree).changeLinks (.replace old new) =
        .ok { edit.atop tree with root := new } := by
      rw [Tree.changeLinks, Tree.parent_of_lt hanchor, hparent, hup]
      rfl
    rw [hchange]
    exact hrelink _ hsize (.inr hnew) fun p c hc => .inl hc
  | some up =>
    -- or one layer links the staged node in the place of the old one
    have hupKnown : up.index < tree.size := h.known up ((h.parentSet old hlt).links up hup).1
    rw [Tree.changeLinks_eq (hparent.trans hup) (hupKnown.trans_le (hsize ▸ hle))]
    refine hrelink _ (by simpa using hsize) (.inl hroot) fun p c hc => ?_
    rcases Tree.parts_modifyKind_cases up p (EditOp.replace old new).change with
      hsame | ⟨rfl, kind, -, hkind, hchanged⟩
    · exact .inl (hsame ▸ hc)
    · rw [hchanged] at hc
      rw [hkind]
      exact (EditOp.mem_or_placed_of_mem_change hc).imp_right fun hplaced =>
        (Option.some.inj hplaced).symm

/-- **Replacing a node of the tree** is let through. -/
theorem exists_commit_replace (hacyclic : tree.Acyclic)
    (hrevision : edit.baseRevision = tree.revision) (hops : edit.ops = [.replace old new])
    (hlinks : edit.checkLinks [] (edit.staged.toList.flatMap fun node => node.kind.children) =
      .ok ()) :
    ∃ next, tree.commit edit = .ok next := by
  have hlt : old.index < tree.size := h.known old hold
  obtain ⟨changed, hchanged⟩ := exists_applyOp_replace h hold hbase hnew hwhole
  -- the one operation asks for no block, only for an anchor that hangs in the tree
  have hcheckOps : edit.checkOps tree [] edit.ops = .ok () := by
    have hattached := (h.isAttached_eq_true hacyclic hlt).2 hold
    rw [hops, checkOps, EditOp.anchor, if_neg (by omega), hattached]
    simp [EditOp.placed?, EditOp.needsBlock, checkOps, Nat.not_le.2 hnew.2]
  have hcheck : edit.check tree = .ok () := by
    rw [check, if_neg (by simp [hbase, hrevision]), hlinks]
    exact hcheckOps
  have hcarry : tree.carryOut edit = .ok { changed with revision := changed.revision + 1 } := by
    rw [Tree.carryOut, hops, List.foldlM_cons]
    show ((edit.atop tree).applyOp (.replace old new) >>= fun next => _) >>= _ = _
    rw [hchanged]
    rfl
  exact ⟨_, by rw [Tree.commit, hcheck, hcarry]; rfl⟩

end

end Edit

end LoopToStream
