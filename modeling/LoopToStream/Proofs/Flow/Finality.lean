import LoopToStream.Flow
import LoopToStream.Proofs.Tree.Questions

/-!
# Asking for finality

Whether a variable keeps its value is a flow query over the whole tree. In a finite tree such a
query may be given up, since it is bounded, but it never gets lost at a link that leads nowhere
(`Grounded.isEffectivelyFinal_answered`). The way up to the place in question is bounded in any
case, so that the parents need only be nodes of the table.
-/

namespace LoopToStream

open Attempt (Answered)

namespace Flow

variable {α : Type} {flow : Flow} {tree : Tree} {see : NodeId → Lookup (List α)} {P : α → Prop}

/-- A walk along nodes of the table, on each of which there is an answer. -/
theorem look_answered {ids : List NodeId} (before : Nat) (hids : ∀ id ∈ ids, id.index < tree.size)
    (hsee : ∀ id ∈ ids, ∃ found, see id = .ok found ∧ ∀ a ∈ found, P a) :
    (flow.look tree see before ids).Answered fun found => ∀ a ∈ found, P a := by
  induction ids generalizing before with
  | nil => simp [look]
  | cons id rest ih =>
    rw [look]
    split
    · -- the query is canceled
      trivial
    · split
      · -- the budget is exhausted
        trivial
      · -- the node is looked at, and what is found there comes before what is found later
        obtain ⟨found, hfound, hP⟩ := hsee id (by simp)
        obtain ⟨node, -, hnode⟩ := Tree.node_of_lt (hids id (by simp))
        have hrest := ih (before + 1) (fun x hx => hids x (by simp [hx]))
          fun x hx => hsee x (by simp [hx])
        rw [hfound, hnode]
        refine hrest.bind fun others hothers => ?_
        rw [Answered.pure_iff]
        intro a ha
        exact (List.mem_append.1 ha).elim (hP a) (hothers a)

end Flow

namespace Tree

variable {tree : Tree} (flow : Flow)

namespace Grounded

/-- Looking for writes does not get lost in finite code. -/
theorem writes_answered {body : NodeId} (hg : tree.Grounded body) :
    (flow.writes tree body).Answered fun writes => ∀ write ∈ writes, write.1.index < tree.size := by
  have hlt : ∀ id ∈ tree.preorder body, id.index < tree.size := fun id hid =>
    (hg.of_reaches (mem_preorder_iff.1 hid)).lt_size
  refine Flow.look_answered 0 hlt fun id hid => ⟨_, rfl, fun write hwrite => ?_⟩
  obtain ⟨v, -, rfl⟩ := Option.map_eq_some_iff.1 (Option.mem_toList.1 hwrite)
  exact hlt id hid

variable (hroot : tree.Grounded tree.root)
include hroot

theorem exists_hasInitialValue? (v : VarId) :
    ∃ answer, Flow.hasInitialValue? tree v = .ok answer := by
  -- the declaration is looked for among all nodes of the tree
  have hdeclaration : tree.declarationOf? v =
      .ok ((tree.preorder tree.root).find? fun n => (tree.kind? n).any (declares v)) := by
    rw [declarationOf?, hroot.descendants_eq]
    rfl
  rw [Flow.hasInitialValue?, hdeclaration, ok_bind]
  cases List.find? (fun n => (tree.kind? n).any (declares v)) (tree.preorder tree.root) with
  | none => exact ⟨_, rfl⟩
  | some declaration =>
    dsimp only
    split <;> exact ⟨_, rfl⟩

/-- **Asking for finality does not get lost** in a finite tree. -/
theorem isEffectivelyFinal_answered (hup : tree.ParentsKnown) {v : VarId}
    (hv : v.index < tree.vars.size)
    (place : NodeId) : (flow.isEffectivelyFinal tree v place).Answered fun _ => True := by
  rw [Flow.isEffectivelyFinal, var_of_lt hv, Attempt.liftM_ok, ok_bind]
  split
  · -- declared final
    trivial
  · refine (hroot.writes_answered flow).bind fun writes hwrites => ?_
    obtain ⟨initial, hinitial⟩ := hroot.exists_hasInitialValue? v
    -- a write to the variable is at a node of the tree
    have hsites : ∀ site ∈ (writes.filter fun write => write.2 = v).map Prod.fst,
        site.index < tree.size := by
      intro site hsite
      obtain ⟨write, hwrite, rfl⟩ := List.mem_map.1 hsite
      exact hwrites write (List.mem_filter.1 hwrite).1
    dsimp only
    split
    · -- of a local variable the declaration is looked up
      rw [hinitial, Attempt.liftM_ok, ok_bind]
      split
      · trivial
      · split
        · trivial
        · -- the one write is compared with the place that is asked about
          next site hsite =>
          obtain ⟨above, habove⟩ := hup.exists_isAncestor (hsites site (by simp [hsite])) place
          rw [habove, Attempt.liftM_ok, ok_bind]
          trivial
        · trivial
      · trivial
    · trivial

end Grounded

namespace WellFormed

variable (h : tree.WellFormed)
include h

theorem writes_answered {body : NodeId} (hbody : tree.Attached body) :
    (flow.writes tree body).Answered fun writes => ∀ write ∈ writes, write.1.index < tree.size :=
  (h.grounded hbody).writes_answered flow

theorem isEffectivelyFinal_answered {v : VarId} (hv : v.index < tree.vars.size) (place : NodeId) :
    (flow.isEffectivelyFinal tree v place).Answered fun _ => True :=
  (h.grounded attached_root).isEffectivelyFinal_answered flow h.upward.parentsKnown hv place

end WellFormed

end Tree

end LoopToStream
