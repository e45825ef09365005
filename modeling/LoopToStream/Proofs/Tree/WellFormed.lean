import LoopToStream.Proofs.Code.Slots
import LoopToStream.Proofs.Tree.Parents
import Mathlib

/-!
# Well-formed trees

A tree is well-formed (`Tree.WellFormed`) if its ids are in range, its links form a tree, each
part is of the sort that its place asks for, and its parents are those that `Tree.relink` sets.
Nothing is asked of the links between nodes that cannot be reached from the top, other than
that they are in range.

That the links form a tree (`Tree.LinkedOnce`) is said slot by slot: what can be reached is
linked from one place, and the top from none. From this follow

* `LinkedOnce.irrefl` — no way down returns to where it began, and so, with every id in range,
  `LinkedOnce.grounded`;
* `LinkedOnce.total` — of two nodes above a third, one is above the other;
* `LinkedOnce.nodup_preorder` — the preorder of the tree lists each node once. Conversely
  `LinkedOnce.of_nodup` reads the slots off such a list, which is how changed trees are seen to
  be well-formed again.

A tree that is written out is seen to be well-formed by a test (`WellFormed.of_isInOrder`). What
else holds of such a tree is computed with `cbv` in the modules above this one. The equations by
which it unfolds lookups in lists and the state monads of the standard library come with Mathlib
as a whole, so this module imports it whole, for those above it too.
-/

namespace LoopToStream

open scoped List

/-- A member that two lists of a concatenation without repetition share shows that they are the
same list. -/
theorem eq_of_mem_flatMap_of_nodup {α β : Type} {l : List α} {f : α → List β} {x y : α} {b : β}
    (h : (l.flatMap f).Nodup) (hx : x ∈ l) (hy : y ∈ l) (hbx : b ∈ f x) (hby : b ∈ f y) :
    x = y := by
  by_contra hne
  have : Std.Symm (Function.onFun List.Disjoint f) := ⟨fun _ _ hd => List.Disjoint.symm hd⟩
  exact (List.nodup_flatMap.1 h).2.forall hx hy hne hbx hby

namespace Tree

variable {tree tree' : Tree} {a b c n p q id : NodeId} {kind : Kind NodeId}

/-! ### What is asked of a tree -/

/-- The node hangs in the tree. -/
def Attached (tree : Tree) (id : NodeId) : Prop := tree.Reaches tree.root id

/-- **The links form a tree.** What can be reached from the top is linked from one place, and
the top itself from none. -/
structure LinkedOnce (tree : Tree) : Prop where
  top_unlinked : ∀ p, tree.Attached p → tree.root ∉ tree.parts p
  one_linker : ∀ p q c, tree.Attached p → tree.Attached q → c ∈ tree.parts p →
    c ∈ tree.parts q → p = q
  once : ∀ p, tree.Attached p → (tree.parts p).Nodup

/-- Something stands at `id` that a place of this sort admits. -/
def Holds (tree : Tree) (slot : Slot) (id : NodeId) : Prop :=
  ∃ kind, tree.kind? id = some kind ∧ slot.admits kind = true

/-- Each part of a layer is of the sort that its place asks for. -/
def Fits (tree : Tree) (kind : Kind NodeId) : Prop :=
  ∀ slot c, (slot, c) ∈ kind.slots → tree.Holds slot c

/-- No link of the table leads out of it. -/
structure Closed (tree : Tree) : Prop where
  top_known : tree.root.index < tree.size
  links_known : ∀ id kind, tree.kind? id = some kind → ∀ c ∈ kind.children, c.index < tree.size

/-- **Well-formed trees.** -/
structure WellFormed (tree : Tree) : Prop extends tree.Closed where
  vars_known : ∀ id kind, tree.kind? id = some kind → ∀ v ∈ kind.vars, v.index < tree.vars.size
  linkedOnce : tree.LinkedOnce
  fits : ∀ id kind, tree.Attached id → tree.kind? id = some kind → tree.Fits kind
  relinked : tree.relink = .ok tree

/-! ### Hanging in the tree -/

theorem attached_root : tree.Attached tree.root := .refl _

theorem Attached.reaches (h : tree.Attached a) (hn : tree.Reaches a n) : tree.Attached n :=
  Reaches.trans h hn

theorem Attached.of_mem (h : tree.Attached p) (hc : c ∈ tree.parts p) : tree.Attached c :=
  Reaches.tail h hc

theorem attached_iff_mem_preorder : tree.Attached n ↔ n ∈ tree.preorder tree.root :=
  mem_preorder_iff.symm

/-- What hangs in the tree is the top or linked by a node that hangs in it. -/
theorem Attached.eq_root_or (h : tree.Attached n) :
    n = tree.root ∨ ∃ p, tree.Attached p ∧ n ∈ tree.parts p := by
  rcases Relation.ReflTransGen.cases_tail h with heq | ⟨p, hp, hn⟩
  · exact .inl heq
  · exact .inr ⟨p, hp, hn⟩

/-! ### Links that form a tree -/

theorem strictlyReaches_iff_last :
    tree.StrictlyReaches a n ↔ ∃ p, tree.Reaches a p ∧ n ∈ tree.parts p :=
  Relation.TransGen.tail'_iff

namespace LinkedOnce

/-- A part stands once among the parts. -/
theorem notMem_beside (h : tree.LinkedOnce) (hp : tree.Attached p) {left right : List NodeId}
    (hparts : tree.parts p = left ++ c :: right) : c ∉ left ∧ c ∉ right := by
  have honce := h.once p hp
  rw [hparts, List.nodup_middle, List.nodup_cons, List.mem_append, not_or] at honce
  exact honce.1

/-- **No way down returns.** Along the way from the top: the last step of a way that returns to
a node comes from the one node that links it. -/
theorem irrefl (h : tree.LinkedOnce) (ha : tree.Attached a) : ¬ tree.StrictlyReaches a a := by
  induction ha with
  | refl =>
    intro hcycle
    obtain ⟨p, hp, hroot⟩ := strictlyReaches_iff_last.1 hcycle
    exact h.top_unlinked p hp hroot
  | @tail p c hp hc ih =>
    intro hcycle
    have hp : tree.Attached p := hp
    -- the way back to `c` ends with the link from `p`, so `p` is on a cycle as well
    obtain ⟨q, hcq, hcq'⟩ := strictlyReaches_iff_last.1 hcycle
    obtain rfl : p = q := h.one_linker p q c hp ((hp.of_mem hc).reaches hcq) hc hcq'
    exact ih (strictlyReaches_iff.2 ⟨c, hc, hcq⟩)

/-- Of two nodes above a third one, one is above the other. -/
theorem total (h : tree.LinkedOnce) (ha : tree.Attached a) (hb : tree.Attached b)
    (han : tree.Reaches a n) (hbn : tree.Reaches b n) : tree.Reaches a b ∨ tree.Reaches b a := by
  induction han with
  | refl => exact .inr hbn
  | @tail p c hap hc ih =>
    rcases Relation.ReflTransGen.cases_tail hbn with rfl | ⟨q, hbq, hq⟩
    · exact .inl (Reaches.tail hap hc)
    · obtain rfl : p = q := h.one_linker p q c (ha.reaches hap) (hb.reaches hbq) hc hq
      exact ih hbq

/-- Siblings have nothing below them in common. -/
theorem siblings_disjoint (h : tree.LinkedOnce) (hp : tree.Attached p) (ha : a ∈ tree.parts p)
    (hb : b ∈ tree.parts p) (hab : a ≠ b) (han : tree.Reaches a n) : ¬ tree.Reaches b n := by
  -- a sibling above the other would be above their parent
  have hsib : ∀ {x y}, x ∈ tree.parts p → y ∈ tree.parts p → x ≠ y → ¬ tree.Reaches x y := by
    intro x y hx hy hxy hreach
    rcases Relation.ReflTransGen.cases_tail hreach with rfl | ⟨q, hxq, hq⟩
    · exact hxy rfl
    · obtain rfl : p = q := h.one_linker p q y hp ((hp.of_mem hx).reaches hxq) hy hq
      exact h.irrefl hp (strictlyReaches_iff.2 ⟨x, hx, hxq⟩)
  intro hbn
  rcases h.total (hp.of_mem ha) (hp.of_mem hb) han hbn with hreach | hreach
  · exact hsib ha hb hab hreach
  · exact hsib hb ha hab.symm hreach

end LinkedOnce

/-- The preorder lists a node, and each part of the nodes that it lists. -/
theorem Grounded.preorder_perm (h : tree.Grounded a) :
    (tree.preorder a).Perm (a :: (tree.preorder a).flatMap tree.parts) := by
  induction h with
  | @layer a kind here below ih =>
    have h : tree.Grounded a := .layer here below
    rw [h.preorder_eq, parts_eq_children here]
    refine List.Perm.cons a ?_
    -- the parts of `a` move in front of the preorders that they begin
    calc kind.children.flatMap tree.preorder
        _ ~ kind.children.flatMap (fun c => c :: (tree.preorder c).flatMap tree.parts) :=
          List.Perm.flatMap_left _ ih
        _ ~ kind.children.map id ++
            kind.children.flatMap (fun c => (tree.preorder c).flatMap tree.parts) :=
          (List.map_append_flatMap_perm _ _ _).symm
        _ ~ (a :: kind.children.flatMap tree.preorder).flatMap tree.parts := by
          simp [parts_eq_children here, List.flatMap_assoc]

/-- **Listing each node once** means that the links form a tree. -/
theorem LinkedOnce.of_nodup (hg : tree.Grounded tree.root)
    (hnodup : (tree.preorder tree.root).Nodup) : tree.LinkedOnce := by
  have hlist := hg.preorder_perm.nodup_iff.1 hnodup
  obtain ⟨hroot, hparts⟩ := List.nodup_cons.1 hlist
  refine ⟨fun p hp hmem => ?_, fun p q c hp hq hcp hcq => ?_, fun p hp => ?_⟩
  · exact hroot (List.mem_flatMap.2 ⟨p, attached_iff_mem_preorder.1 hp, hmem⟩)
  · exact eq_of_mem_flatMap_of_nodup hparts (attached_iff_mem_preorder.1 hp)
      (attached_iff_mem_preorder.1 hq) hcp hcq
  · exact (List.nodup_flatMap.1 hparts).1 p (attached_iff_mem_preorder.1 hp)

/-! ### Tables without dangling links -/

namespace Closed

variable (h : tree.Closed)
include h

theorem lt_size_of_mem (hc : c ∈ tree.parts p) : c.index < tree.size := by
  obtain ⟨kind, hkind⟩ := exists_kind_of_lt (lt_size_of_mem_parts hc)
  exact h.links_known p kind hkind c (parts_eq_children hkind ▸ hc)

theorem lt_size (ha : tree.Attached a) : a.index < tree.size := by
  rcases ha.eq_root_or with rfl | ⟨p, -, hp⟩
  · exact h.top_known
  · exact h.lt_size_of_mem hp

/-- Parents can be set anew. -/
theorem relink_eq : tree.relink = .ok tree.relinked := relink_eq_ok fun _ hn => h.lt_size hn

end Closed

/-- What hangs in the tree is a finite subtree. -/
theorem LinkedOnce.grounded (h : tree.LinkedOnce) (hclosed : tree.Closed) (ha : tree.Attached a) :
    tree.Grounded a := by
  -- on the number of nodes at or below, which a part has fewer of, as it does not lead back
  induction hw : tree.weight a using Nat.strong_induction_on generalizing a with
  | _ w ih =>
    obtain ⟨kind, hkind⟩ := exists_kind_of_lt (hclosed.lt_size ha)
    refine .layer hkind fun c hc => ?_
    have hca : c ∈ tree.parts a := parts_eq_children hkind ▸ hc
    refine ih (tree.weight c) ?_ (ha.of_mem hca) rfl
    rw [← hw]
    refine weight_lt (hclosed.lt_size ha) (.of_mem hca) fun hback => ?_
    exact h.irrefl ha (strictlyReaches_iff.2 ⟨c, hca, hback⟩)

/-- **Each node is listed once.** -/
theorem LinkedOnce.nodup_preorder (h : tree.LinkedOnce) (hclosed : tree.Closed)
    (ha : tree.Attached a) : (tree.preorder a).Nodup := by
  have hg := h.grounded hclosed ha
  induction hg with
  | @layer a kind here below ih =>
    have hg := h.grounded hclosed ha
    have hparts : tree.parts a = kind.children := parts_eq_children here
    rw [hg.preorder_eq, List.nodup_cons, List.nodup_flatMap]
    refine ⟨fun hmem => ?_, fun c hc => ih c (hparts ▸ hc) (ha.of_mem hc), ?_⟩
    · obtain ⟨c, hc, hca⟩ := List.mem_flatMap.1 hmem
      exact hg.not_reaches hc (mem_preorder_iff.1 hca)
    · -- what two parts share would be linked from two places
      refine (h.once a ha).pairwise_of_forall_ne fun c hc d hd hne x hcx hdx => ?_
      exact h.siblings_disjoint ha hc hd hne (mem_preorder_iff.1 hcx) (mem_preorder_iff.1 hdx)

/-- Where parents are set, a part has the one node that links it as its parent. -/
theorem LinkedOnce.parent?_of_mem (h : tree.LinkedOnce) (hclosed : tree.Closed)
    (hrelinked : tree.Relinked) (hp : tree.Attached p)
    (hc : c ∈ tree.parts p) : tree.parent? c = some p :=
  hrelinked.parent?_of_only_link (hclosed.lt_size (hp.of_mem hc)) hp hc fun q hq hcq =>
    h.one_linker q p c hq hp hcq hc

/-! ### What well-formed trees have -/

namespace WellFormed

variable (h : tree.WellFormed)
include h

theorem grounded (ha : tree.Attached a) : tree.Grounded a := h.linkedOnce.grounded h.toClosed ha

theorem nodup_preorder (ha : tree.Attached a) : (tree.preorder a).Nodup :=
  h.linkedOnce.nodup_preorder h.toClosed ha

theorem isRelinked : tree.Relinked := (eq_relinked_of_relink h.relinked).symm

/-! ### Parents -/

/-- The parent of a part is the node that it is a part of. -/
theorem parent?_of_mem (hp : tree.Attached p) (hc : c ∈ tree.parts p) :
    tree.parent? c = some p :=
  h.linkedOnce.parent?_of_mem h.toClosed h.isRelinked hp hc

theorem parent?_root : tree.parent? tree.root = none :=
  h.isRelinked.parent?_of_no_link h.linkedOnce.top_unlinked

theorem parent?_of_not_attached (hn : ¬ tree.Attached n) : tree.parent? n = none :=
  h.isRelinked.parent?_of_no_link fun _ hq hmem => hn (Reaches.tail hq hmem)

theorem parent?_eq_some : tree.parent? c = some p ↔ tree.Attached p ∧ c ∈ tree.parts p := by
  refine ⟨fun hparent => ?_, fun ⟨hp, hc⟩ => h.parent?_of_mem hp hc⟩
  -- a node that does not hang in the tree has no parent
  by_cases hc : tree.Attached c
  · rcases hc.eq_root_or with rfl | ⟨q, hq, hcq⟩
    · simp [h.parent?_root] at hparent
    · rw [h.parent?_of_mem hq hcq] at hparent
      cases hparent
      exact ⟨hq, hcq⟩
  · simp [h.parent?_of_not_attached hc] at hparent

end WellFormed

/-! ### Checking a tree -/

/-- A node of a table in which parts come before what links them: its parts, its variables,
its places and its parent are in order. -/
def isNodeInOrder (tree : Tree) (id : NodeId) : Bool :=
  (tree.node? id).all fun node =>
    node.kind.children.all (·.index < id.index) &&
      node.kind.vars.all (·.index < tree.vars.size) &&
      node.kind.slots.all (fun place => (tree.kind? place.2).any place.1.admits) &&
      node.parent = tree.lastLink? tree.linkOrder id

/-- A test that trees put together from their leaves upwards pass if they are well-formed. -/
def isInOrder (tree : Tree) : Bool :=
  tree.root.index < tree.size && (tree.preorder tree.root).Nodup &&
    (List.range tree.size).all fun i => tree.isNodeInOrder ⟨i⟩

/-- The test is right. -/
theorem WellFormed.of_isInOrder (h : tree.isInOrder = true) : tree.WellFormed := by
  simp only [isInOrder, Bool.and_eq_true, decide_eq_true_eq, List.all_eq_true,
    List.mem_range] at h
  obtain ⟨⟨hroot, hnodup⟩, hall⟩ := h
  -- what the test says about a single node
  have hnode : ∀ id node, tree.node? id = some node →
      (∀ c ∈ node.kind.children, c.index < id.index) ∧
        (∀ v ∈ node.kind.vars, v.index < tree.vars.size) ∧ tree.Fits node.kind ∧
        node.parent = tree.lastLink? tree.linkOrder id := by
    intro id node hsome
    have hlt : id.index < tree.size := kind?_isSome.1 (by simp [kind?, hsome])
    have hid := hall id.index hlt
    simp only [isNodeInOrder, hsome, Option.all_some, Bool.and_eq_true, List.all_eq_true,
      decide_eq_true_eq] at hid
    obtain ⟨⟨⟨hchildren, hvars⟩, hslots⟩, hparent⟩ := hid
    refine ⟨hchildren, hvars, fun slot c hmem => ?_, hparent⟩
    obtain ⟨kind, hkind, hadmits⟩ := (Option.any_eq_true _ _).1 (hslots (slot, c) hmem)
    exact ⟨kind, hkind, hadmits⟩
  have hkind : ∀ id kind, tree.kind? id = some kind →
      (∀ c ∈ kind.children, c.index < id.index) ∧ (∀ v ∈ kind.vars, v.index < tree.vars.size) ∧
        tree.Fits kind := by
    intro id kind hsome
    obtain ⟨node, hfound, rfl⟩ := kind?_eq_some.1 hsome
    obtain ⟨hchildren, hvars, hfits, -⟩ := hnode id node hfound
    exact ⟨hchildren, hvars, hfits⟩
  -- parts come before what links them, so every way down ends
  have hgrounded : ∀ id : NodeId, id.index < tree.size → tree.Grounded id := by
    intro id
    induction hi : id.index using Nat.strong_induction_on generalizing id with
    | _ i ih =>
      intro hlt
      subst hi
      obtain ⟨kind, hsome⟩ := exists_kind_of_lt hlt
      refine .layer hsome fun c hc => ?_
      have hcid := (hkind id kind hsome).1 c hc
      exact ih c.index hcid c rfl (hcid.trans hlt)
  -- ids that come before are ids that are there
  have hlinks : ∀ id kind, tree.kind? id = some kind →
      ∀ c ∈ kind.children, c.index < tree.size := fun id kind hsome c hc =>
    ((hkind id kind hsome).1 c hc).trans (lt_size_of_kind? hsome)
  refine {
    top_known := hroot
    links_known := hlinks
    vars_known := fun id kind hsome => (hkind id kind hsome).2.1
    linkedOnce := LinkedOnce.of_nodup (hgrounded _ hroot) hnodup
    fits := fun id kind _ hsome => (hkind id kind hsome).2.2
    relinked := ?_ }
  rw [relink_eq_ok fun n hn => ((hgrounded _ hroot).of_reaches hn).lt_size,
    relinked_eq_self fun id node hsome => (hnode id node hsome).2.2.2]

end Tree

end LoopToStream
