import LoopToStream.Proofs.Tree.Commit
import LoopToStream.Proofs.Tree.Effects
import LoopToStream.Proofs.Tree.Splice

/-!
# Nodes in two places

Whether the links of a tree still form a tree after an edit depends on the nodes that the edit puts
somewhere. A commit only sees to it that its new nodes link no node of the tree twice. A node that
is put into the tree by an operation may hang there already, and may bring nodes with it that do.

* `Tree.HasOnePlace` — a node is linked from exactly one place, or is the top and linked from none.
  The links form a tree just if that is so for all that hangs in it (`Tree.linkedOnce_iff`).
* `EditOp.PutsApart` — an operation puts a proper subtree into the tree, which has no node in common
  with what stays there.
* `Edit.onePlace_of_commit` — nodes that are not put anywhere have one place after every edit that
  is let through, and all nodes have if each operation puts its node apart. Where an operation takes
  effect on a tree, the result is a tree again only under this condition.
* `Edit.replaceBySibling_committed` — a commit does not demand it: a statement can be replaced by
  the one behind it, which stands in the block twice then.
-/

namespace LoopToStream

open scoped List

variable {tree now next result changed : Tree} {edit : Edit} {op : EditOp}
  {before after : List EditOp} {a n p up new : NodeId} {left mid mid' right : List NodeId}

/-! ### One place for each node -/

namespace Tree

/-- **A node has one place.** It is the top, and no node in the tree links it, or it is linked by
one node in the tree, once. -/
def HasOnePlace (tree : Tree) (id : NodeId) : Prop :=
  (id = tree.root ∧ ∀ p, tree.Attached p → id ∉ tree.parts p) ∨
    id ≠ tree.root ∧ ∃ p, tree.Attached p ∧ (tree.parts p).count id = 1 ∧
      ∀ q, tree.Attached q → id ∈ tree.parts q → q = p

theorem LinkedOnce.hasOnePlace (h : tree.LinkedOnce)
    (ha : tree.Attached a) : tree.HasOnePlace a := by
  by_cases hroot : a = tree.root
  · subst hroot
    exact .inl ⟨rfl, h.top_unlinked⟩
  · obtain ⟨p, hp, hmem⟩ := ha.eq_root_or.resolve_left hroot
    exact .inr ⟨hroot, p, hp, List.count_eq_one_of_mem (h.once p hp) hmem,
      fun q hq hqmem => h.one_linker q p a hq hp hqmem hmem⟩

/-- **The links form a tree** just if all that hangs in it has one place. -/
theorem linkedOnce_iff : tree.LinkedOnce ↔ ∀ n, tree.Attached n → tree.HasOnePlace n := by
  refine ⟨fun h n hn => h.hasOnePlace hn,
    fun h => ⟨fun p hp hmem => ?_, fun p q c hp hq hcp hcq => ?_,
    fun p hp => List.nodup_iff_count_le_one.2 fun c => ?_⟩⟩
  · rcases h tree.root attached_root with ⟨-, hno⟩ | ⟨hne, -⟩
    · exact hno p hp hmem
    · exact hne rfl
  · rcases h c (hp.of_mem hcp) with ⟨-, hno⟩ | ⟨-, r, -, -, honly⟩
    · exact absurd hcp (hno p hp)
    · rw [honly p hp hcp, honly q hq hcq]
  · -- what is a part of a node has that node for its one parent, which links it once
    by_cases hc : c ∈ tree.parts p
    · rcases h c (hp.of_mem hc) with ⟨-, hno⟩ | ⟨-, r, -, hcount, honly⟩
      · exact absurd hc (hno p hp)
      · rw [honly p hp hc, hcount]
    · rw [List.count_eq_zero_of_not_mem hc]
      exact Nat.zero_le 1

/-! ### Putting some parts in the place of others -/

/-- A subtree is *apart* from a tree, but for what is below the nodes `gone`: every way down in it
ends, each node is listed once, and none of them hangs in the tree elsewhere. -/
structure Apart (tree : Tree) (gone new : List NodeId) : Prop where
  grounded : ∀ c ∈ new, tree.Grounded c
  nodup : (new.flatMap tree.preorder).Nodup
  elsewhere : ∀ n ∈ new.flatMap tree.preorder, tree.Attached n → n ∈ gone.flatMap tree.preorder

/-- One layer has other parts in the second tree, and all other layers are the same. -/
structure Exchanges (tree tree' : Tree) (up : NodeId) (left mid mid' right : List NodeId) :
    Prop where
  attached : tree.Attached up
  before : tree.parts up = left ++ mid ++ right
  after : ∃ kind, tree'.kind? up = some kind ∧ kind.children = left ++ mid' ++ right
  elsewhere : ∀ n, n ≠ up → tree'.kind? n = tree.kind? n
  root_eq : tree'.root = tree.root

namespace Exchanges

variable {tree' : Tree} (h : tree.Exchanges tree' up left mid mid' right)
include h

theorem spliced (hg : ∀ c ∈ mid', tree'.Grounded c) :
    tree.Spliced tree' tree.root up left mid mid' right :=
  ⟨h.before, h.after, fun n _ hn _ => h.elsewhere n hn, hg⟩

theorem parts_after : tree'.parts up = left ++ mid' ++ right := by
  obtain ⟨kind, hkind, hchildren⟩ := h.after
  rw [parts_eq_children hkind, hchildren]

/-- The way to the layer that changes is not affected. -/
theorem attached_after (hlinked : tree.LinkedOnce) : tree'.Attached up := by
  refine h.attached.transfer h.root_eq fun p c hp hc hcup => ?_
  have hne : p ≠ up := by
    rintro rfl
    exact hlinked.irrefl h.attached (strictlyReaches_iff.2 ⟨c, hc, hcup⟩)
  rwa [parts, h.elsewhere p hne]

/-- Subtrees without the layer that changes are as they were. -/
theorem sameBelow (hno : ¬ tree.Reaches a up) : tree.SameBelow tree' a :=
  fun n hn => h.elsewhere n fun heq => hno (heq ▸ hn)

theorem sameBelow_symm (hno : ¬ tree'.Reaches a up) : tree'.SameBelow tree a :=
  fun n hn => (h.elsewhere n fun heq => hno (heq ▸ hn)).symm

/-- What is put apart from the tree does not lead to the layer that links it. -/
theorem not_reaches_of_apart (hlinked : tree.LinkedOnce) (hapart : tree.Apart mid mid') {c : NodeId}
    (hc : c ∈ mid') : ¬ tree.Reaches c up := by
  intro hcup
  obtain ⟨d, hd, hdup⟩ := mem_flatMap_preorder.1
    (hapart.elsewhere up (mem_flatMap_preorder.2 ⟨c, hc, hcup⟩) h.attached)
  have hmem : d ∈ tree.parts up := by simp [h.before, hd]
  exact hlinked.irrefl h.attached (strictlyReaches_iff.2 ⟨d, hmem, hdup⟩)

/-- What is put apart from the tree is as it was. -/
theorem sameBelow_of_apart (hlinked : tree.LinkedOnce) (hapart : tree.Apart mid mid') {c : NodeId}
    (hc : c ∈ mid') : tree.SameBelow tree' c :=
  h.sameBelow (h.not_reaches_of_apart hlinked hapart hc)

/-- **One stretch of the preorder gives way** to what is put apart from the tree. -/
theorem preorder_eq (hclosed : tree.Closed) (hlinked : tree.LinkedOnce)
    (hapart : tree.Apart mid mid') :
    tree'.Grounded tree'.root ∧ ∃ front back,
      tree.preorder tree.root = front ++ mid.flatMap tree.preorder ++ back ∧
      tree'.preorder tree'.root = front ++ mid'.flatMap tree.preorder ++ back := by
  have hsame : ∀ c ∈ mid', tree.SameBelow tree' c :=
    fun c hc => h.sameBelow_of_apart hlinked hapart hc
  -- below what is put in, both trees are the same
  have hlists : mid'.flatMap tree'.preorder = mid'.flatMap tree.preorder :=
    List.flatMap_congr fun c hc => (hsame c hc).preorder_eq (hapart.grounded c hc)
  have hspliced := h.spliced fun c hc => (hsame c hc).grounded (hapart.grounded c hc)
  obtain ⟨hg, front, back, hbefore, hafter⟩ :=
    (hlinked.grounded hclosed attached_root).preorder_splice
    (hlinked.nodup_preorder hclosed attached_root) hspliced h.attached
  rw [h.root_eq]
  exact ⟨hg, front, back, hbefore, hlists ▸ hafter⟩

/-- **A tree stays a tree** just if what is put into it is apart from what stays there. One stretch
of the preorder gives way to another one. -/
theorem linkedOnce_iff (hclosed : tree.Closed) (hclosed' : tree'.Closed)
    (hlinked : tree.LinkedOnce) :
    tree'.LinkedOnce ↔ tree.Apart mid mid' := by
  have hg := hlinked.grounded hclosed attached_root
  have hnodup := hlinked.nodup_preorder hclosed attached_root
  constructor
  · -- a tree afterwards lists no node twice, so what is put in is apart from both sides
    intro hlinked'
    have hup := h.attached_after hlinked
    have hmem : ∀ c ∈ mid', c ∈ tree'.parts up := fun c hc => by simp [h.parts_after, hc]
    have hgrounded : ∀ c ∈ mid', tree'.Grounded c := fun c hc =>
      hlinked'.grounded hclosed' (hup.of_mem (hmem c hc))
    have hsame : ∀ c ∈ mid', tree'.SameBelow tree c := fun c hc =>
      h.sameBelow_symm fun hreaches =>
        hlinked'.irrefl hup (strictlyReaches_iff.2 ⟨c, hmem c hc, hreaches⟩)
    -- below what is put in nothing has changed, for no way down leads back to the layer
    have hlists : mid'.flatMap tree'.preorder = mid'.flatMap tree.preorder :=
      List.flatMap_congr fun c hc => ((hsame c hc).preorder_eq (hgrounded c hc)).symm
    obtain ⟨hg', front, back, hbefore, hafter⟩ :=
      hg.preorder_splice hnodup (h.spliced hgrounded) h.attached
    have hnodup' := hlinked'.nodup_preorder hclosed' attached_root
    rw [h.root_eq, hafter, hlists] at hnodup'
    obtain ⟨hfront, -, hback⟩ := List.nodup_append'.1 hnodup'
    obtain ⟨-, hnew, hfront⟩ := List.nodup_append'.1 hfront
    refine ⟨fun c hc => (hsame c hc).grounded (hgrounded c hc), hnew, fun n hn hattached => ?_⟩
    have hin := attached_iff_mem_preorder.1 hattached
    rw [hbefore, List.mem_append, List.mem_append] at hin
    rcases hin with (hin | hin) | hin
    · exact absurd hn (hfront hin)
    · exact hin
    · exact absurd hin (hback (List.mem_append_right _ hn))
  · intro hapart
    obtain ⟨hg', front, back, hbefore, hafter⟩ := h.preorder_eq hclosed hlinked hapart
    refine .of_nodup hg' ?_
    rw [hafter]
    rw [hbefore] at hnodup
    obtain ⟨hfront, hback, hsides⟩ := List.nodup_append'.1 hnodup
    obtain ⟨hfront, -, hgone⟩ := List.nodup_append'.1 hfront
    -- what is put in hangs nowhere but in the stretch that gives way
    have hattached : ∀ n, n ∈ front ∨ n ∈ back → tree.Attached n := fun n hn =>
      attached_iff_mem_preorder.2 (by rw [hbefore]; simp; tauto)
    refine List.nodup_append'.2 ⟨List.nodup_append'.2 ⟨hfront, hapart.nodup, fun n hn hnew => ?_⟩,
      hback, fun n hn hnback => ?_⟩
    · exact hgone hn (hapart.elsewhere n hnew (hattached n (.inl hn)))
    · rcases List.mem_append.1 hn with hn | hn
      · exact hsides (List.mem_append_left _ hn) hnback
      · exact hsides
          (List.mem_append_right _ (hapart.elsewhere n hn (hattached n (.inr hnback)))) hnback

end Exchanges

/-- Only the links matter. -/
theorem LinkedOnce.congr {tree' : Tree} (h : tree.LinkedOnce)
    (hkinds : ∀ n, tree'.kind? n = tree.kind? n)
    (hroot : tree'.root = tree.root) : tree'.LinkedOnce := by
  have hparts : tree'.parts = tree.parts := funext fun n => by rw [parts, parts, hkinds]
  have hattached : ∀ n, tree'.Attached n → tree.Attached n := fun n hn => by
    rwa [Attached, Reaches, hparts, hroot] at hn
  refine ⟨fun p hp => ?_, fun p q c hp hq => ?_, fun p hp => ?_⟩ <;> rw [hparts]
  · rw [hroot]
    exact h.top_unlinked p (hattached p hp)
  · exact h.one_linker p q c (hattached p hp) (hattached q hq)
  · exact h.once p (hattached p hp)

/-- Staged nodes do not hang in the tree yet. -/
theorem LinkedOnce.atop (h : tree.LinkedOnce) (hclosed : tree.Closed) (edit : Edit) :
    (edit.atop tree).LinkedOnce := by
  have hg := h.grounded hclosed attached_root
  have hsame := (edit.grows_atop tree).sameBelow hg
  refine .of_nodup (hsame.grounded hg) ?_
  exact hsame.preorder_eq hg ▸ h.nodup_preorder hclosed attached_root

end Tree

/-! ### One operation -/

namespace EditOp

/-- What gives way to what the operation puts there. -/
def taken (op : EditOp) : List NodeId := if op.consumesAnchor then [op.anchor] else []

/-- **The operation puts its node apart** from what stays in the tree. -/
def PutsApart (op : EditOp) (now : Tree) : Prop := now.Apart op.taken op.placed?.toList

/-- What stands in the place of the anchor afterwards. -/
def leaves (op : EditOp) : List NodeId :=
  op.placed?.toList ++ if op.consumesAnchor then [] else [op.anchor]

/-- The parts of a layer, around the anchor of an operation. -/
theorem exists_split {kind : Kind NodeId} (hmem : op.anchor ∈ kind.children)
    (honce : kind.children.Nodup)
    (hblock : op.needsBlock = true → ∃ stmts, kind = .stmt (.block stmts)) :
    ∃ left right, kind.children = left ++ [op.anchor] ++ right ∧
      (op.change kind).children = left ++ op.leaves ++ right := by
  obtain ⟨left, right, hsplit⟩ := List.append_of_mem hmem
  rw [hsplit, List.nodup_middle, List.nodup_cons, List.mem_append, not_or] at honce
  -- the anchor is among the parts once, so the operation meets it there only
  obtain ⟨⟨hleft, hright⟩, -⟩ := honce
  refine ⟨left, right, by simpa using hsplit, ?_⟩
  cases op with
  | replace old new =>
    have hswapped : ((replace old new).change kind).children = left ++ new :: right :=
      Edit.swapped_children hsplit hleft hright
    simpa [leaves, placed?, consumesAnchor] using hswapped
  | remove stmt =>
    obtain ⟨stmts, rfl⟩ := hblock rfl
    obtain rfl : stmts = left ++ stmt :: right := hsplit
    have hremoved : (remove stmt).change (.stmt (.block (left ++ stmt :: right))) =
        .stmt (.block (left ++ right)) := Edit.removed_block hleft hright
    simp [hremoved, leaves, placed?, consumesAnchor, Kind.children, Stmt.children]
  | insertBefore anchor stmt =>
    obtain ⟨stmts, rfl⟩ := hblock rfl
    obtain rfl : stmts = left ++ anchor :: right := hsplit
    have hinserted : Tree.insertInFront anchor stmt (left ++ anchor :: right) =
        left ++ stmt :: anchor :: right := Edit.Inserting.insertInFront_eq hleft
    simp [change, Tree.mapBlock, hinserted, leaves, placed?, consumesAnchor, EditOp.anchor,
      Kind.children, Stmt.children]

end EditOp

/-! ### One operation on a tree -/

namespace Tree

/-- Another top, and all layers as they were. -/
theorem Apart.linkedOnce_top (h : tree.Apart mid [new]) :
    ({ tree with root := new } : Tree).relinked.LinkedOnce := by
  have hg : tree.Grounded new := h.grounded new (by simp)
  have hnodup : (tree.preorder new).Nodup := by simpa using h.nodup
  have hsame : tree.SameBelow ({ tree with root := new } : Tree).relinked new :=
    fun n _ => relinked_kind?
  refine .of_nodup (hsame.grounded hg) ?_
  rwa [relinked_root, hsame.preorder_eq hg]

end Tree

namespace EditOp

/-- A layer that an operation changes has other parts where the anchor was. -/
theorem exists_exchanges_anchor (hlinked : now.LinkedOnce) (hattached : now.Attached up)
    (hmem : op.anchor ∈ now.parts up) (hblock : op.needsBlock = true → now.isBlock up = true) :
    ∃ left right, now.Exchanges (now.modifyKind up op.change).relinked up left [op.anchor] op.leaves
      right := by
  obtain ⟨kind, hkind⟩ := Tree.exists_kind_of_lt (Tree.lt_size_of_mem_parts hmem)
  have hparts := Tree.parts_eq_children hkind
  -- two of the operations are for statements of blocks only
  have hstmts : op.needsBlock = true → ∃ stmts, kind = .stmt (.block stmts) := by
    intro hneeds
    obtain ⟨stmt, hstmt, hshape⟩ := (Option.any_eq_true _ _).1 (hblock hneeds)
    rw [Tree.stmt?_eq_some.1 hstmt] at hkind
    cases hkind
    cases stmt <;> first | exact ⟨_, rfl⟩ | cases hshape
  obtain ⟨left, right, hbefore, hafter⟩ :=
    exists_split (hparts ▸ hmem) (hparts ▸ hlinked.once up hattached) hstmts
  refine ⟨left, right, hattached, hparts.trans hbefore, ⟨op.change kind, ?_, hafter⟩,
    fun n hn => ?_, rfl⟩
  · rw [Tree.relinked_kind?, Tree.modifyKind_kind?_self, hkind, Option.map_some]
  · rw [Tree.relinked_kind?, Tree.modifyKind_kind?_of_ne hn]

/-- An anchor that stays where it is counts as one of the parts beside. -/
theorem exists_exchanges (hlinked : now.LinkedOnce) (hattached : now.Attached up)
    (hmem : op.anchor ∈ now.parts up) (hblock : op.needsBlock = true → now.isBlock up = true) :
    ∃ left right, now.Exchanges (now.modifyKind up op.change).relinked up left op.taken
      op.placed?.toList right := by
  obtain ⟨left, right, h⟩ := exists_exchanges_anchor hlinked hattached hmem hblock
  cases hconsumes : op.consumesAnchor with
  | true => exact ⟨left, right, by simpa [taken, leaves, hconsumes] using h⟩
  | false =>
    exact ⟨left, op.anchor :: right,
      { h with
        before := by simpa [taken, hconsumes] using h.before
        after := by simpa [leaves, hconsumes] using h.after }⟩

/-- **An operation that takes effect on a tree** leaves a tree just if it puts its node apart. -/
theorem TakesEffect.linkedOnce_iff (h : op.TakesEffect now next) (hclosed : now.Closed)
    (hclosed' : next.Closed) (hlinked : now.LinkedOnce) : next.LinkedOnce ↔ op.PutsApart now := by
  cases h with
  | top new =>
    refine ⟨fun hlinked' => ?_, fun hapart => hapart.linkedOnce_top⟩
    have hg := hlinked'.grounded hclosed' Tree.attached_root
    have hnodup := hlinked'.nodup_preorder hclosed' Tree.attached_root
    -- exchanging the top changes no layer
    have hsame : ({ now with root := new } : Tree).relinked.SameBelow now new := by
      intro n _
      rw [Tree.relinked_kind?]
      rfl
    rw [Tree.relinked_root] at hg hnodup
    refine ⟨by simpa [placed?] using hsame.grounded hg, ?_, fun n _ hn => ?_⟩
    · simpa [placed?, hsame.preorder_eq hg] using hnodup
    · -- the old top gives way with all that hangs below it
      simpa [taken, consumesAnchor, anchor] using Tree.attached_iff_mem_preorder.1 hn
  | layer attached links block =>
    obtain ⟨left, right, hexchanges⟩ := exists_exchanges hlinked attached links block
    exact hexchanges.linkedOnce_iff hclosed hclosed' hlinked

end EditOp

/-! ### The course of an edit -/

namespace Edit

namespace Course

/-- **What is not put anywhere** has one place if it hangs in the tree. -/
theorem hasOnePlace (hwf : tree.WellFormed) (hcourse : Course tree edit before now)
    (hn : ¬ edit.Moves tree before n) (hattached : now.Attached n) : now.HasOnePlace n := by
  have hlinked := hwf.linkedOnce
  -- a node that is put nowhere is linked from where it was linked
  have hmem : ∀ p, n ∈ now.parts p → tree.Attached p ∧ n ∈ tree.parts p :=
    fun p hp => hcourse.mem_parts_of_not_moved hwf hn hp
  by_cases hroot : n = now.root
  · refine .inl ⟨hroot, fun p _ hp => ?_⟩
    -- a top that has been put nowhere is the top of before
    have htop : n = tree.root := hroot.trans (hcourse.top.resolve_right fun ⟨o, ho, hplaced⟩ =>
      hn (.inl ⟨o, ho, hroot ▸ hplaced⟩))
    exact hlinked.top_unlinked p (hmem p hp).1 (htop ▸ (hmem p hp).2)
  · obtain ⟨p, hp, hpn⟩ := hattached.eq_root_or.resolve_left hroot
    obtain ⟨hptree, hpold⟩ := hmem p hpn
    refine .inr ⟨hroot, p, hp, ?_, fun q _ hqn => ?_⟩
    · -- no link of it has been added to the layer that links it
      have hcount := hcourse.fewer n (fun o ho hplaced => hn (.inl ⟨o, ho, hplaced⟩)) p
      rw [((edit.grows_atop tree).sameBelow (hwf.grounded hptree)).parts_eq,
        List.count_eq_one_of_mem (hlinked.once p hptree) hpold] at hcount
      exact Nat.le_antisymm hcount (List.count_pos_iff.2 hpn)
    · exact hlinked.one_linker q p n (hmem q hqn).1 hptree (hmem q hqn).2 hpold

/-- **One more operation** on a tree leaves a tree if it puts its node apart, wherever its anchor
is. -/
theorem linkedOnce_step (hwf : tree.WellFormed) (h : edit.Accepted tree changed)
    (hcourse : Course tree edit before now) (hop : op ∈ edit.ops)
    (happly : now.applyOp op = .ok next) (hlinked : now.LinkedOnce)
    (hapart : op.PutsApart now) : next.LinkedOnce := by
  have hclosed' := (hcourse.step hwf h hop happly).closed
  rcases hcourse.cases_applyOp hwf h hop happly with ⟨-, rfl⟩ | ⟨up, hup, rfl⟩
  · -- at the top, or where the anchor has been cut off
    cases op with
    | replace old new => exact hapart.linkedOnce_top
    | remove stmt => exact hlinked.congr (fun n => Tree.relinked_kind?) rfl
    | insertBefore anchor stmt => exact hlinked.congr (fun n => Tree.relinked_kind?) rfl
  · obtain ⟨hattached, hlinks⟩ :=
      (hcourse.parentSet op.anchor (h.allowed op hop).attached).links up hup
    by_cases hblock : op.needsBlock = true → now.isBlock up = true
    · exact (EditOp.TakesEffect.layer hattached hlinks hblock).linkedOnce_iff
        hcourse.closed hclosed' hlinked |>.2 hapart
    · -- operations on blocks change nothing else
      obtain ⟨hneeds, hno⟩ := Classical.not_imp.1 hblock
      refine hlinked.congr (fun n => ?_) rfl
      rw [Tree.relinked_kind?, Tree.modifyKind_kind?]
      split
      · next heq =>
        subst heq
        cases hkind : now.kind? n with
        | none => rfl
        | some kind =>
          have hshape : kind.stmt?.any Stmt.isBlock = false := by
            rw [Tree.isBlock, Tree.stmt?, hkind, Option.bind_some] at hno
            exact Bool.not_eq_true _ ▸ hno
          rw [Option.map_some, EditOp.change_of_not_block hneeds hshape]
      · rfl

end Course

/-- Each operation of an edit puts its node apart from what stays in the tree at that moment. -/
def PutsApart (edit : Edit) (tree : Tree) : Prop :=
  ∀ before op after now, edit.ops = before ++ op :: after →
    before.foldlM Tree.applyOp (edit.atop tree) = .ok now → op.PutsApart now

/-- **All operations.** By induction on them, from the end. -/
theorem PutsApart.linkedOnce (hwf : tree.WellFormed) (h : edit.Accepted tree changed)
    (hapart : edit.PutsApart tree) (hops : edit.ops = before ++ after)
    (hfold : before.foldlM Tree.applyOp (edit.atop tree) = .ok now) : now.LinkedOnce := by
  induction before using List.reverseRecOn generalizing now after with
  | nil =>
    cases hfold
    exact hwf.linkedOnce.atop hwf.toClosed edit
  | append_singleton before op ih =>
    rw [List.foldlM_append] at hfold
    obtain ⟨mid, hmid, hlast⟩ := bind_eq_ok.1 hfold
    rw [List.foldlM_cons] at hlast
    obtain ⟨last, happly, hlast⟩ := bind_eq_ok.1 hlast
    cases hlast
    rw [List.append_assoc] at hops
    -- the parents that the last operation goes by are known from the course up to it
    have hcourse : Course tree edit before mid :=
      .of_foldlM hwf h (fun o ho => by simp [hops, ho]) hmid
    exact hcourse.linkedOnce_step hwf h (by simp [hops]) happly (ih hops hmid)
      (hapart before op after mid hops hmid)

/-- **One place for each node after a commit.** Whatever an edit that is let through does, the nodes
that it puts nowhere have one place in the tree afterwards. All nodes have if each of its operations
puts its node apart from what stays in the tree. An operation that takes effect on a tree leaves a
tree just if it does so. -/
theorem onePlace_of_commit (hwf : tree.WellFormed) (hcommit : tree.commit edit = .ok result) :
    (∀ n, ¬ edit.Moves tree edit.ops n → result.Attached n → result.HasOnePlace n) ∧
      (edit.PutsApart tree → ∀ n, result.Attached n → result.HasOnePlace n) ∧
      ∀ before op after now next, edit.ops = before ++ op :: after →
        before.foldlM Tree.applyOp (edit.atop tree) = .ok now → now.applyOp op = .ok next →
        op.TakesEffect now next → now.LinkedOnce → (next.LinkedOnce ↔ op.PutsApart now) := by
  obtain ⟨changed, h, rfl⟩ := accepted_of_commit hwf hcommit
  have hcourse : Course tree edit edit.ops changed := .of_foldlM hwf h (fun _ hop => hop) h.carried
  refine ⟨fun n hn hattached => ?_, fun hapart => ?_,
    fun before op after now next hops hnow hnext heffect hlinked => ?_⟩
  · -- what the revision is set to changes no link
    have hplace : changed.HasOnePlace n := hcourse.hasOnePlace hwf hn hattached
    exact hplace
  · have hlinked : changed.LinkedOnce :=
      hapart.linkedOnce hwf h (List.append_nil edit.ops).symm h.carried
    exact Tree.linkedOnce_iff.1 (hlinked.congr (fun _ => rfl) rfl)
  · have hnowCourse : Course tree edit before now :=
      .of_foldlM hwf h (fun o ho => by simp [hops, ho]) hnow
    exact heffect.linkedOnce_iff hnowCourse.closed
      (hnowCourse.step hwf h (by simp [hops]) hnext).closed hlinked

/-- A comment in front of one statement, and another statement less: each node has one place. -/
theorem onePlace_insertThenRemove :
    ∃ result, twoStatements.commit insertThenRemove = .ok result ∧ result.HasOnePlace ⟨3⟩ ∧
      result.HasOnePlace ⟨5⟩ := by
  have hwf : twoStatements.WellFormed := .of_isInOrder (by decide)
  obtain ⟨result, hcommit, hlist⟩ : ∃ result, twoStatements.commit insertThenRemove = .ok result ∧
      result.preorder result.root = [⟨4⟩, ⟨5⟩, ⟨3⟩, ⟨2⟩] := ⟨_, by cbv, by cbv⟩
  have hapart : insertThenRemove.PutsApart twoStatements := by
    intro before op after now hops hnow
    cases before with
    | nil =>
      cases hops
      cases hnow
      -- the comment has just been staged, and hangs nowhere
      refine ⟨?_, by decide, fun n hn hattached => ?_⟩
      · intro c hc
        obtain rfl : c = ⟨5⟩ := by simpa [EditOp.placed?] using hc
        have hkind : (insertThenRemove.atop twoStatements).kind? ⟨5⟩ = some (.comment "// b") := rfl
        exact .layer hkind (by simp [Kind.children])
      · have hnone : ∀ n ∈ [NodeId.mk 5].flatMap (insertThenRemove.atop twoStatements).preorder,
            n ∉ (insertThenRemove.atop twoStatements).preorder
              (insertThenRemove.atop twoStatements).root := by decide
        exact absurd (Tree.attached_iff_mem_preorder.1 hattached) (hnone n hn)
    | cons first rest =>
      cases rest with
      | nil =>
        -- what is removed puts nothing anywhere
        cases hops
        exact ⟨by simp [EditOp.placed?], by simp [EditOp.placed?], by simp [EditOp.placed?]⟩
      | cons second rest => simp [insertThenRemove] at hops
  obtain ⟨-, hplaces, -⟩ := onePlace_of_commit hwf hcommit
  have hattached : ∀ n ∈ [⟨3⟩, ⟨5⟩], result.Attached n := fun n hn =>
    Tree.attached_iff_mem_preorder.2 (by rw [hlist]; revert n; decide)
  exact ⟨result, hcommit, hplaces hapart _ (hattached _ (by simp)),
    hplaces hapart _ (hattached _ (by simp))⟩

/-- The statement `a;` is replaced by the one behind it. -/
def replaceBySibling : Edit := ⟨5, 0, #[], [.replace ⟨1⟩ ⟨3⟩]⟩

/-- **An edit that puts a node in a second place is let through.** The block links the statement
`b;` twice afterwards. -/
theorem replaceBySibling_committed :
    twoStatements.WellFormed ∧ ∃ result, twoStatements.commit replaceBySibling = .ok result ∧
      result.Grounded result.root ∧ result.Attached ⟨3⟩ ∧
      result.kind? result.root = some (.stmt (.block [⟨3⟩, ⟨3⟩])) ∧ ¬ result.HasOnePlace ⟨3⟩ := by
  obtain ⟨result, hcommit, hblock, hstmt, hname, hroot⟩ :
      ∃ result, twoStatements.commit replaceBySibling = .ok result ∧
        result.kind? result.root = some (.stmt (.block [⟨3⟩, ⟨3⟩])) ∧
        result.kind? ⟨3⟩ = some (.stmt (.expr ⟨2⟩)) ∧
        result.kind? ⟨2⟩ = some (.expr (.name "b" none)) ∧ result.root = ⟨4⟩ :=
    ⟨_, by cbv, by cbv, by cbv, by cbv, by cbv⟩
  -- its way down is finite all the same, so this is no cycle
  have hparts : result.parts result.root = [⟨3⟩, ⟨3⟩] := Tree.parts_eq_children hblock
  have hname : result.Grounded ⟨2⟩ := .layer hname (by simp [Kind.children, Expr.children])
  have hstmt : result.Grounded ⟨3⟩ :=
    .layer hstmt (by simpa [Kind.children, Stmt.children] using hname)
  refine ⟨.of_isInOrder (by decide), result, hcommit, ?_, ?_, hblock, ?_⟩
  · exact .layer hblock (by simpa [Kind.children, Stmt.children] using hstmt)
  · exact Tree.attached_root.of_mem (by simp [hparts])
  · -- it is not the top, and its one parent links it twice
    rintro (⟨htop, -⟩ | ⟨-, p, -, hcount, honly⟩)
    · simp [hroot] at htop
    · rw [← honly result.root Tree.attached_root (by simp [hparts]), hparts] at hcount
      simp at hcount

end Edit

end LoopToStream
