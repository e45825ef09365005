import LoopToStream.Proofs.Flow.Outside
import LoopToStream.Proofs.Flow.Walking
import LoopToStream.Proofs.Tree.Questions

/-!
# Up and down

What is below a node can be found out in two ways: on the way down, by listing what follows from the
node, and on the way up, by looking for the node above another one. Neither of them is what one
would write down as the meaning of "below". The walks down use a stack, or a number of steps, and
the walks up use the parents, which have been set by yet another walk.

* `Tree.Preorders` — the preorder by recursion on the code, with neither a stack nor a number of
  steps. It is a relation with one rule for each way in which a list of ids can begin, and it has at
  most one outcome (`Preorders.unique`).
* `Grounded.preorders_iff` — what is listed for a node is its preorder in this sense.
* `WellFormed.mem_preorderWhere_iff` — a walk that does not go into closures comes to a node exactly
  if there is no closure strictly in between. The node where it starts is not in between, so that it
  may be a closure itself.
* `WellFormed.climbing_eq_descending` — in a well-formed tree the ways up and down agree.

For the second to last there is one argument: the node that links another one is the only one to do
so. Thus every way down to a node comes through its parent, and what is in between can be told from
any of them.
-/

namespace LoopToStream

namespace Tree

variable {tree : Tree} {a c n p id : NodeId} {ids ids' below below' : List NodeId}

/-! ### The preorder by recursion -/

/-- **The preorder of a list of ids**: each of them comes in front of the preorder of its parts, and
is followed by that of the ids beside it. -/
inductive Preorders (tree : Tree) : List NodeId → List NodeId → Prop where
  | nil : Preorders tree [] []
  | cons {id : NodeId} {kind : Kind NodeId} {ids inside beside : List NodeId}
      (here : tree.kind? id = some kind) (parts : Preorders tree kind.children inside)
      (rest : Preorders tree ids beside) : Preorders tree (id :: ids) (id :: (inside ++ beside))

namespace Preorders

/-- There is one preorder at most. -/
theorem unique (h : tree.Preorders ids below)
    (h' : tree.Preorders ids below') : below = below' := by
  induction h generalizing below' with
  | nil =>
    cases h'
    rfl
  -- the first node has one layer only, so the two listings go on with the same parts
  | @cons id kind ids inside beside here _ _ ihparts ihrest =>
    cases h' with
    | @cons _ kind' _ inside' beside' here' parts' rest' =>
      obtain rfl : kind = kind' := Option.some.inj (here.symm.trans here')
      rw [ihparts parts', ihrest rest']

theorem append (h : tree.Preorders ids below) (h' : tree.Preorders ids' below') :
    tree.Preorders (ids ++ ids') (below ++ below') := by
  induction h with
  | nil => exact h'
  | @cons id kind ids inside beside here parts _ _ ihrest =>
    rw [List.cons_append, List.cons_append, List.append_assoc]
    exact .cons here parts ihrest

/-- The preorders of the ids, one after the other. -/
theorem flatMap {list : NodeId → List NodeId} (h : ∀ id ∈ ids, tree.Preorders [id] (list id)) :
    tree.Preorders ids (ids.flatMap list) := by
  induction ids with
  | nil => exact .nil
  | cons id ids ih =>
    obtain ⟨hid, hids⟩ := List.forall_mem_cons.1 h
    rw [List.flatMap_cons]
    exact hid.append (ih hids)

end Preorders

/-- **What is listed for a node is its preorder**, by induction on the code below it. -/
theorem Grounded.preorders_iff (h : tree.Grounded a) :
    tree.Preorders [a] below ↔ below = tree.preorder a := by
  -- the preorder is one such listing, and there is no other
  have hlisted : tree.Preorders [a] (tree.preorder a) := by
    induction h with
    | @layer a kind here parts ih =>
      have hg : tree.Grounded a := .layer here parts
      rw [hg.preorder_eq, parts_eq_children here]
      simpa using Preorders.cons here (Preorders.flatMap ih) .nil
  constructor
  · intro hbelow
    exact hbelow.unique hlisted
  · rintro rfl
    exact hlisted

/-! ### Closures in between -/

/-- **A function literal or method reference strictly between two nodes**: below the one, and above
the other. -/
def ClosureBetween (tree : Tree) (a n : NodeId) : Prop :=
  ∃ c, tree.isClosure c = true ∧ tree.StrictlyReaches a c ∧ tree.StrictlyReaches c n

/-- What is in between on the way to a node is still so on the way to its parts. -/
theorem ClosureBetween.tail (h : tree.ClosureBetween a p) (hn : n ∈ tree.parts p) :
    tree.ClosureBetween a n := by
  obtain ⟨c, hclosure, hac, hcp⟩ := h
  exact ⟨c, hclosure, hac, Relation.TransGen.tail hcp hn⟩

/-- What is visited is listed in the order of the preorder. -/
theorem Grounded.preorderWhere_sublist (h : tree.Grounded a) (enter : NodeId → Bool) :
    (tree.preorderWhere enter a).Sublist (tree.preorder a) := by
  refine h.depthFirst_sublist fun x => ?_
  split
  · exact List.Sublist.refl _
  · exact List.nil_sublist _

namespace WellFormed

variable (h : tree.WellFormed)
include h

/-- A closure between a node and a part of another one is that other node, or in between already: no
other node links the part. -/
theorem closureBetween_part (ha : tree.Attached a) (hp : tree.Reaches a p) (hn : n ∈ tree.parts p) :
    tree.ClosureBetween a n ↔ p ≠ a ∧ tree.isClosure p = true ∨ tree.ClosureBetween a p := by
  constructor
  · rintro ⟨c, hclosure, hac, hcn⟩
    -- the closure is above the node that links the part last, which can only be `p`
    obtain ⟨q, hcq, hqn⟩ := strictlyReaches_iff_last.1 hcn
    have hq : tree.Attached q := (ha.reaches hac.reaches).reaches hcq
    obtain rfl : q = p := h.linkedOnce.one_linker q p n hq (ha.reaches hp) hqn hn
    rcases reaches_iff_eq_or_strictly.1 hcq with rfl | hstrict
    · refine .inl ⟨?_, hclosure⟩
      rintro rfl
      exact h.linkedOnce.irrefl ha hac
    · exact .inr ⟨c, hclosure, hac, hstrict⟩
  · rintro (⟨hpa, hclosure⟩ | hbetween)
    · have hap : tree.StrictlyReaches a p := (reaches_iff_eq_or_strictly.1 hp).resolve_left hpa
      exact ⟨p, hclosure, hap, .of_mem hn⟩
    · exact hbetween.tail hn

/-- Nothing is strictly between a node and itself. -/
theorem not_closureBetween_self (ha : tree.Attached a) : ¬ tree.ClosureBetween a a := by
  rintro ⟨c, -, hac, hca⟩
  exact h.linkedOnce.irrefl ha (Relation.TransGen.trans hac hca)

/-- **What is visited without going into closures** is what there is no closure in between to. By
induction on the way down. -/
theorem mem_preorderWhere_iff (ha : tree.Attached a) :
    n ∈ tree.preorderWhere (fun id => !tree.isClosure id) a ↔
      tree.Reaches a n ∧ ¬ tree.ClosureBetween a n := by
  rw [Tree.mem_preorderWhere_iff]
  constructor
  · intro hway
    induction hway with
    | refl => exact ⟨.refl a, h.not_closureBetween_self ha⟩
    | @tail p n _ hstep ih =>
      obtain ⟨hp, hbetween⟩ := ih
      obtain ⟨henter, hn⟩ := hstep
      refine ⟨hp.tail hn, ?_⟩
      rw [h.closureBetween_part ha hp hn]
      rintro (⟨hpa, hclosure⟩ | hbetween')
      · -- the walk has gone on from the parent, which it would not have done from a closure
        simp [hpa, hclosure] at henter
      · exact hbetween hbetween'
  · rintro ⟨hn, hbetween⟩
    induction hn with
    | refl => exact .refl
    | @tail p n hp hn ih =>
      have hp : tree.Reaches a p := hp
      rw [h.closureBetween_part ha hp hn, not_or] at hbetween
      obtain ⟨hopen, hbetween⟩ := hbetween
      -- the walk goes on from the parent: it is the start or no closure
      refine (ih hbetween).tail ⟨?_, hn⟩
      by_cases hpa : p = a
      · exact .inl hpa
      · exact .inr (by simpa [hpa] using hopen)

/-! ### Climbing and descending -/

open Classical in
/-- **Climbing and descending agree.** What is listed for a node of a well-formed tree is its
preorder by recursion, without repetition, and the loops with a stack come to it. The nodes on this
list are those from which the way up comes to the node, starting with themselves; the node itself is
the only one of them from which it does not, starting with their parents. What is listed without
going into closures are those of them, in this order, that no function literal or method reference
is strictly above, up to the node. -/
theorem climbing_eq_descending (ha : tree.Attached a) :
    ∃ below outside, tree.descendants a = .ok below ∧
      tree.descendantsOutsideClosures a = .ok outside ∧
      tree.Preorders [a] below ∧ below.Nodup ∧ tree.LoopsAgree a outside below ∧
      (∀ n : NodeId, n.index < tree.size →
        tree.isAncestor a n = .ok (decide (n ∈ below)) ∧
        tree.isProperAncestor a n = .ok (decide (n ∈ below ∧ n ≠ a))) ∧
      outside = below.filter fun n => decide (¬ tree.ClosureBetween a n) := by
  have hg : tree.Grounded a := h.grounded ha
  have hnodup : (tree.preorder a).Nodup := h.nodup_preorder ha
  refine ⟨_, _, hg.descendants_eq, hg.descendantsWhere_eq _, hg.preorders_iff.2 rfl, hnodup,
    hg.loopsAgree, fun n hn => ⟨?_, ?_⟩, ?_⟩
  · rw [h.isAncestor_eq_of_attached ha hn, decide_eq_decide.2 mem_preorder_iff]
  · -- a node below another one is not that one, since no way down returns
    have hiff : tree.Attached a ∧ tree.StrictlyReaches a n ↔ n ∈ tree.preorder a ∧ n ≠ a := by
      rw [mem_preorder_iff, reaches_iff_eq_or_strictly]
      constructor
      · rintro ⟨-, hstrict⟩
        refine ⟨.inr hstrict, ?_⟩
        rintro rfl
        exact h.linkedOnce.irrefl ha hstrict
      · rintro ⟨heq | hstrict, hne⟩
        · exact absurd heq hne
        · exact ⟨ha, hstrict⟩
    rw [isProperAncestor, h.climbsTo_eq hn, decide_eq_decide.2 hiff]
  · -- what is not gone into leaves the order of the rest as it is
    rw [eq_filter_of_sublist (hg.preorderWhere_sublist _) hnodup fun n =>
      h.mem_preorderWhere_iff ha]
    refine List.filter_congr fun n hn => decide_eq_decide.2 ?_
    rw [and_iff_right (mem_preorder_iff.1 hn)]

end WellFormed

/-- A function literal that returns another one, which returns the parameter of the first. -/
def curried : Tree where
  nodes := #[
    ⟨.expr (.name "x" (some ⟨0⟩)), some ⟨1⟩, placeOf 0⟩,
    ⟨.expr (.lambda [⟨1⟩] false ⟨0⟩), some ⟨2⟩, placeOf 1⟩,
    ⟨.expr (.lambda [⟨0⟩] false ⟨1⟩), some ⟨3⟩, placeOf 2⟩,
    ⟨.stmt (.expr ⟨2⟩), some ⟨4⟩, placeOf 3⟩,
    ⟨.stmt (.block [⟨3⟩]), none, placeOf 4⟩]
  vars :=
    #[⟨"x", .simple "int", .lambdaParameter, false⟩, ⟨"y", .simple "int", .lambdaParameter, false⟩]
  root := ⟨4⟩
  scope := .unknown
  revision := 0

/-- A walk from the outer function literal goes into it and comes to the inner one, which it does
not go into. The way up from the name comes through both of them. -/
theorem climbing_eq_descending_curried :
    curried.descendants ⟨2⟩ = .ok [⟨2⟩, ⟨1⟩, ⟨0⟩] ∧ curried.Preorders [⟨2⟩] [⟨2⟩, ⟨1⟩, ⟨0⟩] ∧
      curried.descendantsOutsideClosures ⟨2⟩ = .ok [⟨2⟩, ⟨1⟩] ∧ curried.ClosureBetween ⟨2⟩ ⟨0⟩ ∧
      curried.isAncestor ⟨2⟩ ⟨2⟩ = .ok true ∧ curried.isProperAncestor ⟨2⟩ ⟨2⟩ = .ok false ∧
      curried.isProperAncestor ⟨2⟩ ⟨0⟩ = .ok true ∧ curried.isAncestor ⟨2⟩ ⟨3⟩ = .ok false := by
  have hwf : curried.WellFormed := .of_isInOrder (by decide)
  have hattached : curried.Attached ⟨2⟩ := mem_preorder_iff.1 (by decide)
  obtain ⟨below, outside, hbelow, houtside, hpreorder, -, -, hup, hfilter⟩ :=
    hwf.climbing_eq_descending hattached
  obtain rfl : below = [⟨2⟩, ⟨1⟩, ⟨0⟩] := Except.ok.inj (hbelow.symm.trans (by rfl))
  obtain rfl : outside = [⟨2⟩, ⟨1⟩] := Except.ok.inj (houtside.symm.trans (by rfl))
  -- the name is the one that is left out
  have hbetween : curried.ClosureBetween ⟨2⟩ ⟨0⟩ := by
    by_contra hnone
    have hname : (⟨0⟩ : NodeId) ∈ [(⟨2⟩ : NodeId), ⟨1⟩] := by
      rw [hfilter, List.mem_filter]
      exact ⟨by decide, by simpa using hnone⟩
    exact absurd hname (by decide)
  refine ⟨hbelow, hpreorder, houtside, hbetween, ?_, ?_, ?_, ?_⟩
  · simpa using (hup ⟨2⟩ (by decide)).1
  · simpa using (hup ⟨2⟩ (by decide)).2
  · simpa using (hup ⟨0⟩ (by decide)).2
  · simpa using (hup ⟨3⟩ (by decide)).1

end Tree

end LoopToStream
