import LoopToStream.Proofs.Tree.Questions
import LoopToStream.Proofs.Tree.Rules
import LoopToStream.Proofs.Tree.Sharing

/-!
# A single operation

An edit of one operation exchanges one stretch of the preorder, the one that lists the anchor and
what is below it, and leaves all that is listed in front of it and behind it as it is.

What is put there has to be a tree: new nodes, together with nodes from below an anchor that gives
way, the anchor itself included, each linked once (`EditOp.Brings`). As far as sorts go, it is
enough that a node gives way to one of its own sort (`EditOp.KeepsSorts`). For well-formed trees,
what takes the place of a function body has to be a body as well (`EditOp.KeepsBodies`).

* `EditOp.TakesEffect.splice` — an operation that takes effect on a tree exchanges one stretch.
* `EditOp.TakesEffect.fitsBy` — by whatever rule the parts have fitted, they still do.
* `Edit.splice_of_commit` — what an edit of one operation leaves.
-/

namespace LoopToStream

variable {tree now next result : Tree} {edit : Edit} {op : EditOp} {a c n new up : NodeId}
  {kind : Kind NodeId} {slot : Slot} {rule : Slot → Kind Unit → Bool}

/-! ### What an operation puts in a place -/

namespace EditOp

/-- What has a place in a layer afterwards had it before, or has been put in the place of the anchor
or in front of it. -/
theorem mem_slots_change (hmem : op.anchor ∈ kind.children)
    (h : (slot, c) ∈ (op.change kind).slots) :
    (slot, c) ∈ kind.slots ∨ op.placed? = some c ∧ (slot, op.anchor) ∈ kind.slots := by
  cases op with
  | replace old new =>
    rw [change, Kind.slots_map] at h
    obtain ⟨⟨place, d⟩, hd, heq⟩ := List.mem_map.1 h
    obtain ⟨rfl, hc⟩ := Prod.mk.inj heq
    split at hc
    · -- the node that is placed gets the place of the anchor
      next hold => exact .inr ⟨congrArg some hc, hold ▸ hd⟩
    · exact .inl (hc ▸ hd)
  | remove stmt =>
    rcases mapBlock_cases (fun stmts => stmts.filter (· ≠ stmt)) kind with
      ⟨stmts, rfl, hchange⟩ | ⟨-, hchange⟩
    · rw [change, hchange, Kind.mem_slots_block] at h
      exact .inl (Kind.mem_slots_block.2 ⟨h.1, List.mem_of_mem_filter h.2⟩)
    · rw [change, hchange] at h
      exact .inl h
  | insertBefore anchor stmt =>
    rcases mapBlock_cases (Tree.insertInFront anchor stmt) kind with ⟨stmts, rfl,
      hchange⟩ | ⟨-, hchange⟩
    · have hc : c ∈ ((insertBefore anchor stmt).change (.stmt (.block stmts))).children :=
        Kind.mem_children_of_mem_slots h
      rw [change, hchange, Kind.mem_slots_block] at h
      -- all places of a block are alike
      rcases mem_or_placed_of_mem_change hc with hold | hplaced
      · exact .inl (Kind.mem_slots_block.2 ⟨h.1, hold⟩)
      · exact .inr ⟨hplaced, Kind.mem_slots_block.2 ⟨h.1, hmem⟩⟩
    · rw [change, hchange] at h
      exact .inl h

/-- Wherever the anchor stands, the rule lets stand what the operation puts there. -/
def SuitsBy (rule : Slot → Kind Unit → Bool) (now : Tree) (op : EditOp) : Prop :=
  ∀ new up kind slot, op.placed? = some new → now.Attached up → now.kind? up = some kind →
    (slot, op.anchor) ∈ kind.slots → now.HoldsBy rule slot new

namespace TakesEffect

variable (h : op.TakesEffect now next)
include h

theorem relinks : now.Relinks next := by
  cases h with
  | top new =>
    have hroot : now.Relinks { now with root := new } := ⟨rfl, rfl, fun _ => rfl, fun _ => rfl⟩
    exact hroot.trans (.relinked _)
  | layer attached links block =>
    exact (Tree.Relinks.modifyKind (Kind.outline_change op)).trans (.relinked _)

theorem vars_eq : next.vars = now.vars := by cases h <;> rfl

theorem revision_eq : next.revision = now.revision := by cases h <;> rfl

theorem isRelinked : next.Relinked := by cases h <;> exact .relinked

theorem closed (hclosed : now.Closed)
    (hplaced : ∀ new, op.placed? = some new → new.index < now.size) :
    next.Closed := by
  cases h with
  | top new => exact Tree.Closed.relinked ⟨hplaced new rfl, hclosed.links_known⟩
  | layer attached links block => exact (hclosed.change hplaced).relinked

/-- Nothing changes but the layer that links the anchor. -/
theorem kind?_eq (hn : ¬ (now.Attached n ∧ op.anchor ∈ now.parts n)) :
    next.kind? n = now.kind? n := by
  cases h with
  | top new => exact Tree.relinked_kind?
  | @layer _ up attached links block =>
    have hne : n ≠ up := fun heq => hn (heq ▸ ⟨attached, links⟩)
    rw [Tree.relinked_kind?, Tree.modifyKind_kind?_of_ne hne]

/-- **What has a place afterwards** had it before or has been put in the place of the anchor or in
front of it. -/
theorem exists_slot (hkind : next.kind? n = some kind) (hc : (slot, c) ∈ kind.slots) :
    ∃ before, now.kind? n = some before ∧ ((slot, c) ∈ before.slots ∨
      op.placed? = some c ∧ now.Attached n ∧ (slot, op.anchor) ∈ before.slots) := by
  cases h with
  | top new =>
    rw [Tree.relinked_kind?] at hkind
    exact ⟨kind, hkind, .inl hc⟩
  | @layer _ up attached links block =>
    rw [Tree.relinked_kind?, Tree.modifyKind_kind?] at hkind
    split at hkind
    · next heq =>
      subst heq
      obtain ⟨before, hbefore, rfl⟩ := Option.map_eq_some_iff.1 hkind
      rw [Tree.parts_eq_children hbefore] at links
      refine ⟨before, hbefore, (mem_slots_change links hc).imp_right ?_⟩
      exact fun ⟨hplaced, hanchor⟩ => ⟨hplaced, attached, hanchor⟩
    · exact ⟨kind, hkind, .inl hc⟩

/-- What hangs in the tree afterwards did so before or is below what has been put there. -/
theorem attached_or_placed (hn : next.Attached n) :
    now.Attached n ∨ ∃ new, op.placed? = some new ∧ now.Reaches new n := by
  -- the top is one of before, or it has been put there
  have hroot :
      now.Attached next.root ∨ ∃ new, op.placed? = some new ∧ now.Reaches new next.root := by
    cases h with
    | top new => exact .inr ⟨new, rfl, .refl new⟩
    | layer attached links block => exact .inl Tree.attached_root
  refine hn.bound (fun n => now.Attached n ∨ ∃ new, op.placed? = some new ∧ now.Reaches new n) hroot
    fun p hp c hc => ?_
  -- one step down: a part is one from before, or it is what has been put there
  obtain ⟨kind, hkind⟩ := Tree.exists_kind_of_lt (Tree.lt_size_of_mem_parts hc)
  rw [Tree.parts_eq_children hkind, ← Kind.map_slots] at hc
  obtain ⟨⟨slot, c⟩, hslot, rfl⟩ := List.mem_map.1 hc
  obtain ⟨before, hbefore, hslot | ⟨hplaced, -, -⟩⟩ := h.exists_slot hkind hslot
  · have hmem : c ∈ now.parts p :=
      Tree.parts_eq_children hbefore ▸ Kind.mem_children_of_mem_slots hslot
    exact hp.imp (fun hp => hp.of_mem hmem) fun ⟨new, hnew, hp⟩ => ⟨new, hnew, hp.tail hmem⟩
  · exact .inr ⟨c, hplaced, .refl c⟩

/-- **By whatever rule the parts have fitted, they still do.** -/
theorem fitsBy (hold : ∀ id kind, now.Attached id → now.kind? id = some kind → now.FitsBy rule kind)
    (hnew : ∀ new, op.placed? = some new → ∀ id kind, now.Reaches new id →
      now.kind? id = some kind →
      now.FitsBy rule kind)
    (hsuits : op.SuitsBy rule now) :
    ∀ id kind, next.Attached id → next.kind? id = some kind → next.FitsBy rule kind := by
  intro id kind hid hkind slot c hc
  refine h.relinks.holdsBy ?_
  obtain ⟨before, hbefore, hslot | ⟨hplaced, hattached, hanchor⟩⟩ := h.exists_slot hkind hc
  · rcases h.attached_or_placed hid with hid | ⟨new, hplaced, hid⟩
    · exact hold id before hid hbefore slot c hslot
    · exact hnew new hplaced id before hid hbefore slot c hslot
  · exact hsuits c id before slot hplaced hattached hbefore hanchor

/-- **An operation exchanges one stretch of the preorder**, that of its anchor, where it takes
effect on a tree and puts a tree in the place of the anchor. -/
theorem splice (hclosed : now.Closed) (hclosed' : next.Closed) (hlinked : now.LinkedOnce)
    (hapart : now.Apart [op.anchor] op.leaves) :
    next.LinkedOnce ∧ (∀ c ∈ op.leaves, now.SameBelow next c) ∧ ∃ front back,
      now.preorder now.root = front ++ now.preorder op.anchor ++ back ∧
      next.preorder next.root = front ++ op.leaves.flatMap now.preorder ++ back := by
  cases h with
  | top new =>
    -- there is nothing in front of the top or behind all that is below it
    have hleaves : (replace now.root new).leaves = [new] := rfl
    have hsame : now.SameBelow ({ now with root := new } : Tree).relinked new :=
      fun n _ => Tree.relinked_kind?
    rw [hleaves] at hapart ⊢
    refine ⟨hapart.linkedOnce_top, by simpa using hsame, [], [], by simp [anchor], ?_⟩
    rw [Tree.relinked_root, hsame.preorder_eq (hapart.grounded new (by simp))]
    simp
  | layer attached links block =>
    obtain ⟨left, right, hexchanges⟩ := exists_exchanges_anchor hlinked attached links block
    obtain ⟨-, front, back, hbefore, hafter⟩ := hexchanges.preorder_eq hclosed hlinked hapart
    refine ⟨(hexchanges.linkedOnce_iff hclosed hclosed' hlinked).2 hapart,
      fun c hc => hexchanges.sameBelow_of_apart hlinked hapart hc, front, back, ?_, hafter⟩
    simpa using hbefore

end TakesEffect

/-! ### Edits of one operation -/

/-- **What the operation brings is a tree** of its own: each node in it is linked once, each part is
one that the rule lets stand at its place, and of the nodes that were there, it has only such as are
below an anchor that gives way. -/
structure Brings (tree : Tree) (edit : Edit) (rule : Slot → Kind Unit → Bool) (op : EditOp)
    (new : NodeId) : Prop where
  linkedOnce : ({ edit.atop tree with root := new } : Tree).LinkedOnce
  fits : ∀ id kind, (edit.atop tree).Reaches new id → (edit.atop tree).kind? id = some kind →
    (edit.atop tree).FitsBy rule kind
  own : ∀ n, (edit.atop tree).Reaches new n → n.index < tree.size →
    op.consumesAnchor = true ∧ tree.Reaches op.anchor n

/-- A node gives way to one of its own sort, and a statement or a comment is put in front of others.
-/
def KeepsSorts (tree : Tree) (edit : Edit) : EditOp → Prop
  | .replace old new => ∃ kind kind', tree.kind? old = some kind ∧
      (edit.atop tree).kind? new = some kind' ∧ kind.sameSort kind' = true
  | .remove _ => True
  | .insertBefore _ stmt => (edit.atop tree).Holds .blockItem stmt

/-- The body of a function literal gives way to an expression or a block. -/
def KeepsBodies (tree : Tree) (edit : Edit) (op : EditOp) : Prop :=
  ∀ up kind new, tree.Attached up → tree.kind? up = some kind →
    (.functionBody, op.anchor) ∈ kind.slots →
    op.placed? = some new → (edit.atop tree).Holds .functionBody new

/-- The stretch that takes the place of the one of the anchor, if `placed` lists what is put there.
-/
def spliced (placed inside : List NodeId) : EditOp → List NodeId
  | .replace .. => placed
  | .remove _ => []
  | .insertBefore .. => placed ++ inside

theorem flatMap_leaves (op : EditOp) (f : NodeId → List NodeId) :
    op.leaves.flatMap f = op.spliced (op.placed?.toList.flatMap f) (f op.anchor) := by
  cases op <;> simp [leaves, spliced, placed?, consumesAnchor, anchor]

theorem mem_leaves :
    c ∈ op.leaves ↔ op.placed? = some c ∨ op.consumesAnchor = false ∧ c = op.anchor := by
  cases op <;> simp [leaves, placed?, consumesAnchor, anchor, eq_comm]

end EditOp

namespace Edit

/-- **An edit of one operation is that operation**: it has taken effect on the tree with the staged
nodes at the end of its table. -/
theorem takesEffect_of_commit (hclosed : tree.Closed) (hrelinked : tree.Relinked)
    (hcommit : tree.commit edit = .ok result) (hops : edit.ops = [op])
    (hanchor : tree.Attached op.anchor) :
    (edit.atop tree).Closed ∧ (∀ new, op.placed? = some new → new.index < (edit.atop tree).size) ∧
      ∃ next, op.TakesEffect (edit.atop tree) next ∧
        result = { next with revision := next.revision + 1 } := by
  obtain ⟨hsize, hlinks, hchecked, next, hnext, hresult⟩ := of_commit hcommit
  rw [hops] at hchecked hnext
  obtain ⟨hpassed, -, -⟩ := passed_of_checkOps_cons hchecked
  rw [List.foldlM_cons] at hnext
  obtain ⟨_, happly, hnext⟩ := bind_eq_ok.1 hnext
  cases hnext
  have hlimit : (edit.atop tree).size = edit.limit := size_atop_of_base hsize
  -- the links of the staged nodes have been checked
  have hclosed' : (edit.atop tree).Closed := closed_atop hclosed fun id kind hle hkind c hc => by
    obtain ⟨node, hnode, rfl⟩ := mem_staged_of_kind? hle hkind
    exact hlimit ▸ lt_limit_of_checkLinks hlinks c (List.mem_flatMap.2 ⟨node, hnode, hc⟩)
  have hlt := hclosed.lt_size hanchor
  have hset : (edit.atop tree).ParentSet op.anchor := hrelinked.parentSet_atop hclosed hanchor
  refine ⟨hclosed', fun new hnew => hlimit ▸ hpassed.placed_known new hnew, next, ?_, hresult⟩
  refine .of_applyOp hclosed' hset ((Tree.attached_atop_iff hclosed).2 hanchor)
    (fun hneeds => ?_) happly
  -- the block that the check has found is one of the tree
  have hblock := hpassed.in_block hneeds
  rw [Tree.isInBlock_eq hlt] at hblock
  obtain ⟨up, hup, hblock⟩ := (Option.any_eq_true _ _).1 (Except.ok.inj hblock)
  have huplt := hclosed.lt_size ((hrelinked.parentSet hlt).links up hup).1
  rw [Tree.parent?, atop_node?_of_lt hlt]
  refine (Option.any_eq_true _ _).2 ⟨up, hup, ?_⟩
  rwa [Tree.isBlock, Tree.stmt?, (edit.grows_atop tree).kind?_eq up huplt]

/-- What hangs in the tree is not staged. -/
theorem of_attached_atop (hclosed : tree.Closed) (hup : (edit.atop tree).Attached up)
    (hkind : (edit.atop tree).kind? up = some kind) :
    tree.Attached up ∧ tree.kind? up = some kind := by
  have hup := (Tree.attached_atop_iff hclosed).1 hup
  exact ⟨hup, ((edit.grows_atop tree).kind?_eq up (hclosed.lt_size hup)).symm.trans hkind⟩

end Edit

namespace EditOp

/-- What is a well-formed tree on its own can be brought. -/
theorem Brings.of_wellFormedBy {code : Tree} (h : code.WellFormedBy rule) (hroot : code.root = new)
    (hkinds : ∀ n, code.kind? n = (edit.atop tree).kind? n)
    (hown : ∀ n ∈ (edit.atop tree).preorder new, n.index < tree.size →
      op.consumesAnchor = true ∧ tree.Reaches op.anchor n) : op.Brings tree edit rule new where
  linkedOnce := h.linkedOnce.congr (fun n => (hkinds n).symm) hroot.symm
  fits id kind hid hkind slot c hc := by
    have hsame : (edit.atop tree).SameBelow code new := fun n _ => hkinds n
    have hattached : code.Attached id := by
      rw [Tree.Attached, hroot]
      exact hsame.reaches hid
    obtain ⟨part, hpart, hrule⟩ := Tree.holdsBy_iff.1
      (h.fits id kind hattached ((hkinds id).trans hkind) slot c hc)
    exact Tree.holdsBy_iff.2 ⟨part, (hkinds c).symm.trans hpart, hrule⟩
  own n hn hlt := hown n (Tree.mem_preorder_iff.2 hn) hlt

theorem Brings.grounded (h : op.Brings tree edit rule new) (hclosed : (edit.atop tree).Closed)
    (hnew : new.index < (edit.atop tree).size) :
    (edit.atop tree).Grounded new ∧ ((edit.atop tree).preorder new).Nodup := by
  have htop : ({ edit.atop tree with root := new } : Tree).Closed := ⟨hnew, hclosed.links_known⟩
  have hg := h.linkedOnce.grounded htop Tree.attached_root
  have hsame : ({ edit.atop tree with root := new } : Tree).SameBelow (edit.atop tree) new :=
    fun _ _ => rfl
  exact ⟨hsame.grounded hg,
    hsame.preorder_eq hg ▸ h.linkedOnce.nodup_preorder htop Tree.attached_root⟩

/-- **What the operation brings is apart from the tree**, but for what is below its anchor. -/
theorem apart_of_brings (hclosed : tree.Closed) (hlinked : tree.LinkedOnce)
    (hclosed' : (edit.atop tree).Closed) (hanchor : tree.Attached op.anchor)
    (hknown : ∀ new, op.placed? = some new → new.index < (edit.atop tree).size)
    (hnew : ∀ new, op.placed? = some new → op.Brings tree edit rule new) :
    (edit.atop tree).Apart [op.anchor] op.leaves := by
  have hg := hlinked.grounded hclosed hanchor
  have hgrow := edit.grows_atop tree
  have hlt : ∀ n ∈ (edit.atop tree).preorder op.anchor, n.index < tree.size := fun n hn => by
    rw [hgrow.preorder_eq hg] at hn
    exact hclosed.lt_size (hanchor.reaches (Tree.mem_preorder_iff.1 hn))
  have hbrought := fun new hplaced => (hnew new hplaced).grounded hclosed' (hknown new hplaced)
  refine ⟨fun c hc => ?_, ?_, fun n hn hattached => ?_⟩
  · rcases mem_leaves.1 hc with hplaced | ⟨-, rfl⟩
    · exact (hbrought c hplaced).1
    · exact hgrow.grounded hg
  · cases op with
    | replace old new => simpa [leaves, placed?, consumesAnchor] using (hbrought new rfl).2
    | remove stmt => simp [leaves, placed?, consumesAnchor]
    | insertBefore anchor stmt =>
      have hinside : ((edit.atop tree).preorder anchor).Nodup :=
        hgrow.preorder_eq hg ▸ hlinked.nodup_preorder hclosed hanchor
      suffices hall : ((edit.atop tree).preorder stmt ++ (edit.atop tree).preorder anchor).Nodup by
        simpa [leaves, placed?, consumesAnchor, EditOp.anchor] using hall
      -- what is below the anchor was there before, and nothing of what is put in front of it was
      refine List.nodup_append'.2 ⟨(hbrought stmt rfl).2, hinside, fun n hn hbelow => ?_⟩
      obtain ⟨hconsumes, -⟩ := (hnew stmt rfl).own n (Tree.mem_preorder_iff.1 hn) (hlt n hbelow)
      cases hconsumes
  · rw [List.flatMap_singleton]
    obtain ⟨c, hc, hcn⟩ := Tree.mem_flatMap_preorder.1 hn
    rcases mem_leaves.1 hc with hplaced | ⟨-, rfl⟩
    · -- hanging in the tree, it was there before, and so it is from below the anchor
      have hn := hclosed.lt_size ((Tree.attached_atop_iff hclosed).1 hattached)
      exact Tree.mem_preorder_iff.2 (hgrow.reaches hg ((hnew c hplaced).own n hcn hn).2)
    · exact Tree.mem_preorder_iff.2 hcn

/-- What is of the right sort suits its place, as far as sorts go. -/
theorem KeepsSorts.suitsBy_takes (h : op.KeepsSorts tree edit)
    (htree : tree.WellFormedBy Slot.takes)
    (heffect : op.TakesEffect (edit.atop tree) next) : op.SuitsBy Slot.takes (edit.atop tree) := by
  intro new up kind slot hplaced hup hkind hslot
  have hlinked := htree.linkedOnce.atop htree.toClosed edit
  cases op with
  | replace old new' =>
    cases hplaced
    obtain ⟨kind₁, kind₂, hold, hnew, hsort⟩ := h
    -- the place is that of the node that is replaced, which is of the same sort
    obtain ⟨hup, hkind⟩ := Edit.of_attached_atop htree.toClosed hup hkind
    obtain ⟨part, hpart, htakes⟩ :=
      Tree.holdsBy_takes.1 (htree.fits up kind hup hkind slot old hslot)
    obtain rfl := Option.some.inj (hpart.symm.trans hold)
    exact Tree.holdsBy_takes.2 ⟨kind₂, hnew, Slot.takes_congr hsort ▸ htakes⟩
  | remove stmt => cases hplaced
  | insertBefore anchor stmt =>
    cases hplaced
    -- the anchor has no place but the one in its block
    obtain ⟨block, stmts, hblock, hmem, hattached, -⟩ := heffect.exists_block rfl
    have hlinks : anchor ∈ (edit.atop tree).parts up :=
      Tree.parts_eq_children hkind ▸ Kind.mem_children_of_mem_slots hslot
    obtain rfl := hlinked.one_linker up block anchor hup hattached hlinks
      (Tree.parts_eq_children hblock ▸ hmem)
    obtain rfl := Option.some.inj (hkind.symm.trans hblock)
    obtain ⟨rfl, -⟩ := Kind.mem_slots_block.1 hslot
    obtain ⟨part, hpart, hadmits⟩ := h
    exact Tree.holdsBy_takes.2 ⟨part, hpart, Slot.takes_of_admits hadmits⟩

/-- Function bodies are the only places where sorts do not say all. -/
theorem KeepsBodies.suitsBy_admits (h : op.KeepsBodies tree edit) (hclosed : tree.Closed)
    (hsuits : op.SuitsBy Slot.takes (edit.atop tree)) :
    op.SuitsBy Slot.admits (edit.atop tree) := by
  intro new up kind slot hplaced hup hkind hslot
  by_cases hbody : slot = .functionBody
  · subst hbody
    obtain ⟨hup, hkind⟩ := Edit.of_attached_atop hclosed hup hkind
    exact Tree.holdsBy_admits.2 (h up kind new hup hkind hslot hplaced)
  · obtain ⟨outline, houtline, htakes⟩ := hsuits new up kind slot hplaced hup hkind hslot
    exact ⟨outline, houtline, Slot.takes_eq_admits hbody outline ▸ htakes⟩

/-- **The tree is as well-formed as it was**, by a rule that lets stand what the operation brings.
-/
theorem TakesEffect.wellFormedBy (h : op.TakesEffect (edit.atop tree) next)
    (htree : tree.WellFormedBy rule) (hclosed : next.Closed) (hlinked : next.LinkedOnce)
    (hvars : ∀ node ∈ edit.staged.toList, ∀ v ∈ node.kind.vars, v.index < tree.vars.size)
    (hnew : ∀ new, op.placed? = some new → op.Brings tree edit rule new)
    (hsuits : op.SuitsBy rule (edit.atop tree)) (revision : UInt64) :
    ({ next with revision := revision } : Tree).WellFormedBy rule where
  top_known := hclosed.top_known
  links_known := hclosed.links_known
  vars_known id kind hkind v hv := by
    obtain ⟨before, hbefore, houtline⟩ := h.relinks.exists_kind hkind
    rw [← Kind.vars_outline, ← houtline, Kind.vars_outline] at hv
    have hsize : next.vars.size = tree.vars.size := congrArg Array.size h.vars_eq
    refine hsize ▸ ?_
    -- the layer is one of the tree or a staged one, up to its links
    by_cases hid : id.index < tree.size
    · exact htree.vars_known id before ((edit.grows_atop tree).kind?_eq id hid ▸ hbefore) v hv
    · obtain ⟨node, hnode, rfl⟩ := Edit.mem_staged_of_kind? (Nat.le_of_not_lt hid) hbefore
      exact hvars node hnode v hv
  linkedOnce := hlinked.congr (fun _ => rfl) rfl
  fits := by
    -- the layers of the tree still fit in the longer table
    have hold : ∀ id kind, (edit.atop tree).Attached id → (edit.atop tree).kind? id = some kind →
        (edit.atop tree).FitsBy rule kind := by
      intro id kind hid hkind slot c hc
      obtain ⟨hid, hkind⟩ := Edit.of_attached_atop htree.toClosed hid hkind
      exact (edit.grows_atop tree).holdsBy (htree.fits id kind hid hkind slot c hc)
    exact h.fitsBy hold (fun new hplaced => (hnew new hplaced).fits) hsuits
  relinked := by
    have hrelinked := h.isRelinked.setRevision revision
    have hclosed : ({ next with revision := revision } : Tree).Closed :=
      ⟨hclosed.top_known, hclosed.links_known⟩
    exact hclosed.relink_eq.trans (congrArg Except.ok hrelinked)

end EditOp

namespace Edit

/-- **An edit of one operation exchanges one stretch of the preorder.** The edit is let through on a
tree in which each part is of a sort that its place takes, and its anchor hangs in the tree. What it
puts there is a tree of its own (`EditOp.Brings`) and of the right sort (`EditOp.KeepsSorts`).

What is listed in front of the anchor and behind all that is below it is listed afterwards as
before. In between stands what has been put there: instead of the anchor and what is below it, in
front of these, or nothing where the anchor has been removed. The revision is one higher, no node
that was there has another layer but the parent of the anchor, and the tree is as well-formed as it
was. Where, besides, each statement behind an arrow is a block, that is so afterwards as well if it
is so in what is put there. -/
theorem splice_of_commit (h : tree.WellFormedBy Slot.takes)
    (hcommit : tree.commit edit = .ok result) (hops : edit.ops = [op])
    (hanchor : tree.Attached op.anchor)
    (hvars : ∀ node ∈ edit.staged.toList, ∀ v ∈ node.kind.vars, v.index < tree.vars.size)
    (hsorts : op.KeepsSorts tree edit)
    (hnew : ∀ new, op.placed? = some new → op.Brings tree edit Slot.takes new) :
    ∃ front inside back placed,
      tree.descendants tree.root = .ok (front ++ inside ++ back) ∧
      tree.descendants op.anchor = .ok inside ∧
      (∀ new, op.placed? = some new →
        (edit.atop tree).descendants new = .ok placed ∧ result.descendants new = .ok placed) ∧
      result.descendants result.root = .ok (front ++ op.spliced placed inside ++ back) ∧
      result.revision = tree.revision + 1 ∧
      (∀ n, n.index < tree.size → tree.parent? op.anchor ≠ some n → result.kind? n = tree.kind? n) ∧
      result.WellFormedBy Slot.takes ∧
      (tree.WellFormed → (∀ new, op.placed? = some new → op.Brings tree edit Slot.admits new) →
        op.KeepsBodies tree edit → result.WellFormed) := by
  have hrelinked : tree.Relinked := (Tree.eq_relinked_of_relink h.relinked).symm
  have hgrow := edit.grows_atop tree
  obtain ⟨hclosed', hknown, next, heffect, hresult⟩ :=
    takesEffect_of_commit h.toClosed hrelinked hcommit hops hanchor
  have hlinked' := h.linkedOnce.atop h.toClosed edit
  have hapart := EditOp.apart_of_brings h.toClosed h.linkedOnce hclosed' hanchor hknown hnew
  have hclosed := heffect.closed hclosed' hknown
  obtain ⟨hlinked, hsame, front, back, hbefore, hafter⟩ :=
    heffect.splice hclosed' hclosed hlinked' hapart
  -- what is put there suits its place, so the layers fit as far as sorts go
  have hsuits := hsorts.suitsBy_takes h heffect
  have hsorted : result.WellFormedBy Slot.takes :=
    hresult ▸ heffect.wellFormedBy h hclosed hlinked hvars hnew hsuits _
  -- the lists of the tree are those of the longer table
  have hroot := h.linkedOnce.grounded h.toClosed Tree.attached_root
  have hg := h.linkedOnce.grounded h.toClosed hanchor
  rw [show (edit.atop tree).root = tree.root from rfl, hgrow.preorder_eq hroot,
    hgrow.preorder_eq hg] at hbefore
  rw [op.flatMap_leaves, hgrow.preorder_eq hg] at hafter
  refine ⟨front, tree.preorder op.anchor, back, op.placed?.toList.flatMap (edit.atop tree).preorder,
    hbefore ▸ hroot.descendants_eq, hg.descendants_eq, fun new hplaced => ?_, ?_, ?_,
    fun n hn hup => ?_, hsorted, fun hwf hstrict hbodies => ?_⟩
  · have hleaf : new ∈ op.leaves := EditOp.mem_leaves.2 (.inl hplaced)
    have hground := hapart.grounded new hleaf
    have hthere : (edit.atop tree).SameBelow result new := hresult ▸ hsame new hleaf
    have hlist :
        op.placed?.toList.flatMap (edit.atop tree).preorder = (edit.atop tree).preorder new := by
      simp [hplaced]
    rw [hlist, (hthere.grounded hground).descendants_eq, hthere.preorder_eq hground]
    exact ⟨hground.descendants_eq, rfl⟩
  · rw [(hsorted.linkedOnce.grounded hsorted.toClosed Tree.attached_root).descendants_eq, hresult]
    exact congrArg Except.ok hafter
  · rw [hresult]
    exact congrArg (· + 1) heffect.revision_eq
  · have hkeep : next.kind? n = (edit.atop tree).kind? n := by
      refine heffect.kind?_eq fun ⟨hattached, hlinks⟩ => hup ?_
      rw [Tree.attached_atop_iff h.toClosed] at hattached
      rw [Tree.parts, hgrow.kind?_eq n hn] at hlinks
      exact h.linkedOnce.parent?_of_mem h.toClosed hrelinked hattached hlinks
    rw [hresult]
    exact hkeep.trans (hgrow.kind?_eq n hn)
  · have hsuits := hbodies.suitsBy_admits h.toClosed hsuits
    have hstill :=
      heffect.wellFormedBy (Tree.wellFormedBy_admits.2 hwf) hclosed hlinked hvars hstrict
      hsuits (next.revision + 1)
    exact hresult ▸ Tree.wellFormedBy_admits.1 hstill

/-- A block with a comment takes the place of `a;`, and `a;` goes into the block. -/
def wrapStatement : Edit :=
  ⟨5, 0, #[⟨.comment "// a", none, Tree.placeOf 5⟩,
  ⟨.stmt (.block [⟨5⟩, ⟨1⟩]), none, Tree.placeOf 6⟩],
    [.replace ⟨1⟩ ⟨6⟩]⟩

/-- The block has its statement in it, and the other statement behind it. -/
theorem splice_wrapStatement : ∃ result front back,
    twoStatements.commit wrapStatement = .ok result ∧
      twoStatements.descendants ⟨4⟩ = .ok (front ++ [⟨1⟩, ⟨0⟩] ++ back) ∧
      result.descendants result.root = .ok (front ++ [⟨6⟩, ⟨5⟩, ⟨1⟩, ⟨0⟩] ++ back) ∧
      result.WellFormed := by
  have hwf : twoStatements.WellFormed := .of_isInOrder (by decide)
  obtain ⟨result, hcommit⟩ : ∃ result, twoStatements.commit wrapStatement = .ok result :=
    ⟨_, by cbv⟩
  -- the staged block is a tree of its own, with the statement in it
  obtain ⟨code, hcode, hroot, hkinds⟩ : ∃ code : Tree, code.WellFormed ∧ code.root = ⟨6⟩ ∧
      ∀ n, code.kind? n = (wrapStatement.atop twoStatements).kind? n :=
    ⟨({ wrapStatement.atop twoStatements with root := ⟨6⟩ } : Tree).relinked,
      .of_isInOrder (by decide +kernel), rfl, fun n => Tree.relinked_kind?⟩
  have hown : ∀ n ∈ (wrapStatement.atop twoStatements).preorder ⟨6⟩, n.index < twoStatements.size →
      n ∈ twoStatements.preorder ⟨1⟩ := by decide
  have hbrings :
      ∀ {rule}, code.WellFormedBy rule → ∀ new, (EditOp.replace ⟨1⟩ ⟨6⟩).placed? = some new →
      (EditOp.replace ⟨1⟩ ⟨6⟩).Brings twoStatements wrapStatement rule new := by
    rintro rule hrule new ⟨⟩
    exact .of_wellFormedBy hrule hroot hkinds fun n hn hlt =>
      ⟨rfl, Tree.mem_preorder_iff.1 (hown n hn hlt)⟩
  have hanchor : twoStatements.Attached ⟨1⟩ := Tree.attached_iff_mem_preorder.2 (by decide)
  obtain ⟨front, inside, back, placed, hbefore, hinside, hplaced, hafter, -, -, -, hstill⟩ :=
    splice_of_commit hwf.wellFormedBy_takes hcommit rfl hanchor
      (by simp [wrapStatement, Kind.vars, Stmt.vars]) ⟨_, _, rfl, rfl,
      rfl⟩ (hbrings hcode.wellFormedBy_takes)
  have hone : twoStatements.descendants ⟨1⟩ = .ok [⟨1⟩, ⟨0⟩] := by cbv
  have hstaged : (wrapStatement.atop twoStatements).descendants ⟨6⟩ = .ok [⟨6⟩, ⟨5⟩, ⟨1⟩, ⟨0⟩] := by
    cbv
  obtain rfl : inside = [⟨1⟩, ⟨0⟩] := Except.ok.inj (hinside.symm.trans hone)
  obtain rfl : placed = [⟨6⟩, ⟨5⟩, ⟨1⟩, ⟨0⟩] :=
    Except.ok.inj ((hplaced ⟨6⟩ rfl).1.symm.trans hstaged)
  have hbodies : (EditOp.replace ⟨1⟩ ⟨6⟩).KeepsBodies twoStatements wrapStatement := by
    rintro up kind new - - - ⟨⟩
    exact ⟨_, rfl, rfl⟩
  exact ⟨result, front, back, hcommit, hbefore, hafter,
    hstill hwf (hbrings (Tree.wellFormedBy_admits.2 hcode)) hbodies⟩

end Edit

end LoopToStream
