import LoopToStream.Proofs.Flow.Exits
import LoopToStream.Proofs.Tree.Grounded

/-!
# Code outside of function literals

What flow queries look at when they do not go into function literals and method references. They are
asked about a statement, so that there is no difference between the code itself and what is below
it: `Tree.preorderWhere_eq_outside` reads the walk as one that goes on from nothing that is a
closure.

* `Grounded.outside_eq` — the equation of this walk, which goes into the parts of a node unless it
  is a closure;
* `mem_outside_iff` — it lists what can be reached outside of closures;
* `WellFormed.outside_eq_filter` — this is the preorder without what is inside of closures.
-/

namespace LoopToStream

open Classical in
/-- A list that is taken out of a list without repetition, in its order, is told by its members. -/
theorem eq_filter_of_sublist {α : Type} {l l' : List α} {p : α → Prop} (h : l.Sublist l')
    (hnodup : l'.Nodup) (hp : ∀ a, a ∈ l ↔ p a) : l = l'.filter fun a => decide (p a) := by
  have hsub : l.Sublist (l'.filter fun a => decide (p a)) := by
    have hkept := h.filter fun a => decide (p a)
    rwa [List.filter_eq_self.2 fun a ha => by simpa using (hp a).1 ha] at hkept
  -- and it is not shorter
  refine hsub.eq_of_length_le (List.Subperm.length_le (List.subperm_of_subset (hnodup.filter _) ?_))
  intro a ha
  exact (hp a).2 (by simpa using (List.mem_filter.1 ha).2)

namespace Tree

variable {tree : Tree} {a b n id : NodeId}

/-- The parts that are looked at from a node; none if it is a closure. -/
def openParts (tree : Tree) (id : NodeId) : List NodeId :=
  if tree.isClosure id then [] else tree.parts id

/-- The id and what is below it, without what is inside of closures. -/
def outside (tree : Tree) (id : NodeId) : List NodeId :=
  depthFirst tree.openParts tree.pathBound id []

theorem openParts_sublist : (tree.openParts id).Sublist (tree.parts id) := by
  unfold openParts
  split
  · exact List.nil_sublist _
  · exact List.Sublist.refl _

theorem openParts_of_open (h : tree.isClosure id = false) : tree.openParts id = tree.parts id := by
  rw [openParts, h]
  rfl

/-- **Where the start is no closure**, it need not be told apart from what is below it. -/
theorem preorderWhere_eq_outside (h : tree.isClosure a = false) :
    tree.preorderWhere (fun node => !tree.isClosure node) a = tree.outside a := by
  unfold preorderWhere outside
  congr 1
  funext node
  by_cases hnode : node = a
  · subst hnode
    rw [openParts_of_open h, if_pos (.inl rfl)]
  · cases hclosure : tree.isClosure node <;> simp [openParts, hnode, hclosure]

theorem mem_outside_iff (h : tree.isClosure a = false) :
    n ∈ tree.outside a ↔ tree.ReachesOutsideClosures a n := by
  rw [← preorderWhere_eq_outside h, mem_preorderWhere_iff]
  -- the walk goes on from its start in any case, which is no closure
  constructor
  · refine Relation.ReflTransGen.mono (fun p c hstep => ?_) a n
    obtain ⟨rfl | henter, hc⟩ := hstep
    · exact ⟨h, hc⟩
    · exact ⟨by simpa using henter, hc⟩
  · exact Relation.ReflTransGen.mono (fun p c hstep => ⟨.inr (by simp [hstep.1]), hstep.2⟩) a n

/-- **The walk spelled out**: a node, then the walks from the parts that are looked at. -/
theorem Grounded.outside_eq (h : tree.Grounded a) :
    tree.outside a = a :: (tree.openParts a).flatMap tree.outside :=
  h.depthFirst_eq fun _ => openParts_sublist.subset

/-- **A walk that leaves out some of the parts** lists what it comes to in the order of the
preorder. -/
theorem Grounded.depthFirst_sublist {next : NodeId → List NodeId}
    (hnext : ∀ x, (next x).Sublist (tree.parts x)) (h : tree.Grounded a) :
    (depthFirst next tree.pathBound a []).Sublist (tree.preorder a) := by
  induction h with
  | @layer a kind here below ih =>
    have hg : tree.Grounded a := .layer here below
    rw [hg.depthFirst_eq fun x => (hnext x).subset, hg.preorder_eq]
    refine List.Sublist.cons_cons a (((hnext a).flatMap _).trans ?_)
    rw [parts_eq_children here]
    exact List.Sublist.flatMap_right _ ih

/-- What is looked at is listed in the order of the preorder. -/
theorem Grounded.outside_sublist (h : tree.Grounded a) :
    (tree.outside a).Sublist (tree.preorder a) :=
  h.depthFirst_sublist fun _ => openParts_sublist

open Classical in
/-- **The preorder without what is inside of closures.** -/
theorem WellFormed.outside_eq_filter (hwf : tree.WellFormed) (ha : tree.Attached a)
    (hopen : tree.isClosure a = false) :
    tree.outside a = (tree.preorder a).filter fun n =>
      decide (tree.ReachesOutsideClosures a n) := by
  exact eq_filter_of_sublist (hwf.grounded ha).outside_sublist (hwf.nodup_preorder ha)
    fun n => mem_outside_iff hopen

end Tree

end LoopToStream
