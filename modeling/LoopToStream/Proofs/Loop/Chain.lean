import LoopToStream.Loop.Action
import LoopToStream.Proofs.Tree.WellFormed

/-!
# Taking the guards off an action

`GuardChain.of` takes guards off the body of a loop for as long as there are any. `Tree.Guarded`
is the same as a relation, with one rule for each thing that is taken off, a block around a
single statement or a guard, and one for the action that is left.

* `Grounded.chain_of_eq` — the chain of a body by what is taken off it first;
* `Grounded.guarded_of` — it is one in this sense;
* `Guarded.sublist` — the conditions and the action stand below the body, in this order and
  apart from each other.
-/

namespace LoopToStream

open scoped List

namespace Tree

variable {tree : Tree} {id inner cond branch action n a : NodeId} {conds : List NodeId}

/-- The code at the first id runs the action if the conditions hold, asked for in this order. -/
inductive Guarded (tree : Tree) : NodeId → List NodeId → NodeId → Prop where
  | wrapped {id inner : NodeId} {conds : List NodeId} {action : NodeId}
      (only : tree.onlyStatement? id = some inner) (below : Guarded tree inner conds action) :
      Guarded tree id conds action
  | guard {id cond branch : NodeId} {conds : List NodeId} {action : NodeId}
      (guard : GuardChain.guard? tree id = some (cond, branch))
      (below : Guarded tree branch conds action) : Guarded tree id (cond :: conds) action
  | bare {id : NodeId} : Guarded tree id [] id

/-! ### What is taken off -/

theorem onlyStatement?_eq_some (h : tree.onlyStatement? id = some inner) :
    ∃ stmts, tree.kind? id = some (.stmt (.block stmts)) ∧
      tree.statementsAmong stmts = [inner] := by
  unfold onlyStatement? at h
  cases hblock : (tree.stmt? id).bind Stmt.block? with
  | none => simp [hblock] at h
  | some stmts =>
    simp only [hblock] at h
    -- comments aside, the block has one statement
    split at h
    · next single hsingle =>
      cases h
      obtain ⟨s, hs, hstmts⟩ := Option.bind_eq_some_iff.1 hblock
      cases s <;> simp [Stmt.block?] at hstmts
      subst hstmts
      exact ⟨_, stmt?_eq_some.1 hs, hsingle⟩
    · simp at h

theorem guard?_eq_some (h : GuardChain.guard? tree id = some (cond, branch)) :
    tree.kind? id = some (.stmt (.branch (some cond) (some branch) none)) := by
  unfold GuardChain.guard? at h
  split at h
  · next hstmt =>
    cases h
    exact stmt?_eq_some.1 hstmt
  · simp at h

theorem mem_parts_of_onlyStatement? (h : tree.onlyStatement? id = some inner) :
    inner ∈ tree.parts id := by
  obtain ⟨stmts, hkind, hsingle⟩ := onlyStatement?_eq_some h
  have hinner : inner ∈ tree.statementsAmong stmts := by simp [hsingle]
  rw [parts_eq_children hkind]
  exact (List.mem_filter.1 hinner).1

/-- What stands beside the only statement of a block is a comment. -/
theorem comment_of_onlyStatement? (hwf : tree.WellFormed) (hid : tree.Attached id)
    (honly : tree.onlyStatement? id = some inner) {c : NodeId} (hc : c ∈ tree.parts id)
    (hne : c ≠ inner) : ∃ text, tree.kind? c = some (.comment text) := by
  obtain ⟨stmts, hkind, hsingle⟩ := onlyStatement?_eq_some honly
  rw [parts_eq_children hkind, Kind.children, Stmt.children] at hc
  obtain ⟨kind, hkindc, hadmits⟩ := hwf.fits id _ hid hkind .blockItem c
    (by simpa [Kind.slots, Stmt.slots] using hc)
  -- a block holds comments and statements, and nothing else
  cases kind with
  | comment text => exact ⟨text, hkindc⟩
  | expr e => cases hadmits
  | stmt s =>
    -- the block has one statement only
    have hmem : c ∈ tree.statementsAmong stmts := by
      refine List.mem_filter.2 ⟨hc, ?_⟩
      rw [stmt?_eq_some.2 hkindc]
      rfl
    rw [hsingle, List.mem_singleton] at hmem
    exact absurd hmem hne

theorem parts_of_guard? (h : GuardChain.guard? tree id = some (cond, branch)) :
    tree.parts id = [cond, branch] := by
  rw [parts_eq_children (guard?_eq_some h)]
  rfl

/-- The statement in the end is the one that nothing is around, or below. -/
theorem Grounded.unwrapSingleBlock_eq (hg : tree.Grounded id) :
    tree.unwrapSingleBlock id =
      match tree.onlyStatement? id with
      | some inner => tree.unwrapSingleBlock inner
      | none => id :=
  hg.innermost_eq fun _ _ h => .of_mem (mem_parts_of_onlyStatement? h)

theorem reaches_unwrapSingleBlock (tree : Tree) (id : NodeId) :
    tree.Reaches id (tree.unwrapSingleBlock id) :=
  reaches_innermostWithin (fun _ _ h => mem_parts_of_onlyStatement? h) _ id

/-- The chain that starts at an id, with as many guards as there are. -/
theorem Grounded.chain_eq (hg : tree.Grounded id) :
    GuardChain.within tree tree.pathBound id =
      match GuardChain.guard? tree id with
      | some (cond, branch) => .guarded id cond (GuardChain.of tree branch)
      | none => .bare id := by
  -- from a guard to the statement it guards is a step down, so the bound never runs out
  have hway : ∀ {x c b}, GuardChain.guard? tree x = some (c, b) →
      tree.StrictlyReaches x (tree.unwrapSingleBlock b) := fun {_ _ b} h =>
    strictlyReaches_iff.2 ⟨b, by simp [parts_of_guard? h], tree.reaches_unwrapSingleBlock b⟩
  rw [pathBound, GuardChain.within]
  cases hguard : GuardChain.guard? tree id with
  | none => rfl
  | some parts =>
    obtain ⟨cond, branch⟩ := parts
    refine congrArg (GuardChain.guarded id cond) ?_
    refine hg.pathBound_eq (f := GuardChain.within tree) (fun i j x hx => ?_) (hway hguard)
    rw [GuardChain.within, GuardChain.within]
    cases hx' : GuardChain.guard? tree x with
    | none => rfl
    | some parts =>
      obtain ⟨c, b⟩ := parts
      exact congrArg (GuardChain.guarded x c) (hx _ (hway hx'))

/-- **The chain of a body**, one thing taken off at a time: a block around a single statement, or a
guard. -/
theorem Grounded.chain_of_eq (hg : tree.Grounded id) :
    GuardChain.of tree id =
      match tree.onlyStatement? id with
      | some inner => GuardChain.of tree inner
      | none =>
        match GuardChain.guard? tree id with
        | some (cond, branch) => .guarded id cond (GuardChain.of tree branch)
        | none => .bare id := by
  rw [GuardChain.of, hg.unwrapSingleBlock_eq]
  cases tree.onlyStatement? id with
  | some inner => rfl
  | none => exact hg.chain_eq

/-! ### Chains as a relation -/

/-- **The conditions and the action of a body** are what is left when all else has been taken off.
-/
theorem Grounded.guarded_of (hg : tree.Grounded id) :
    tree.Guarded id (GuardChain.of tree id).conditions (GuardChain.of tree id).action := by
  induction hg with
  | @layer a kind here below ih =>
    have hparts := parts_eq_children here
    rw [(Grounded.layer here below).chain_of_eq]
    cases honly : tree.onlyStatement? a with
    | some inner => exact .wrapped honly (ih inner (hparts ▸ mem_parts_of_onlyStatement? honly))
    | none =>
      -- a guard is taken off only where there is no block to be taken off
      cases hguard : GuardChain.guard? tree a with
      | none => exact .bare
      | some parts =>
        obtain ⟨cond, branch⟩ := parts
        exact .guard hguard (ih branch (hparts ▸ by simp [parts_of_guard? hguard]))

namespace Guarded

theorem reaches_action (h : tree.Guarded id conds action) : tree.Reaches id action := by
  induction h with
  | wrapped only _ ih => exact ih.head (mem_parts_of_onlyStatement? only)
  | guard guard _ ih => exact ih.head (by simp [parts_of_guard? guard])
  | bare => exact .refl _

/-- Conditions are strictly below the code. -/
theorem reaches_condition (h : tree.Guarded id conds action) (hcond : cond ∈ conds) :
    tree.StrictlyReaches id cond := by
  induction h with
  | wrapped only _ ih =>
    exact strictlyReaches_iff.2 ⟨_, mem_parts_of_onlyStatement? only, (ih hcond).reaches⟩
  | guard guard _ ih =>
    rcases List.mem_cons.1 hcond with rfl | hcond
    · exact .of_mem (by simp [parts_of_guard? guard])
    · exact strictlyReaches_iff.2 ⟨_, by simp [parts_of_guard? guard], (ih hcond).reaches⟩
  | bare => simp at hcond

/-- **What is kept stands apart.** The conditions and the action are listed below the code in
this order. -/
theorem sublist (h : tree.Guarded id conds action) (hg : tree.Grounded id) :
    (conds.flatMap tree.preorder ++ tree.preorder action) <+ tree.preorder id := by
  induction h with
  | @wrapped id inner conds action only below ih =>
    have hmem := mem_parts_of_onlyStatement? only
    exact (ih (hg.of_mem_parts hmem)).trans (hg.preorder_sublist (.of_mem hmem))
  | @guard id cond branch conds action guard below ih =>
    -- the condition comes first among the parts of a guard, and the branch behind it
    have hparts := parts_of_guard? guard
    rw [hg.preorder_eq, hparts]
    simp only [List.flatMap_cons, List.flatMap_nil, List.append_nil, List.append_assoc]
    exact ((ih (hg.of_mem_parts (by simp [hparts]))).append_left _).cons _
  | bare => simp

/-- The conditions are expressions and the action is a statement. -/
theorem holds (h : tree.Guarded id conds action) (hwf : tree.WellFormed) (hid : tree.Attached id)
    (hstmt : tree.Holds .statement id) :
    tree.Holds .statement action ∧ ∀ cond ∈ conds, tree.Holds .expression cond := by
  induction h with
  | @wrapped id inner conds action only below ih =>
    -- the block is left for its only statement
    obtain ⟨stmts, -, hsingle⟩ := onlyStatement?_eq_some only
    have hinner : inner ∈ tree.statementsAmong stmts := by simp [hsingle]
    obtain ⟨s, hs⟩ := Option.isSome_iff_exists.1 (List.mem_filter.1 hinner).2
    exact ih (hid.of_mem (mem_parts_of_onlyStatement? only)) ⟨_, stmt?_eq_some.1 hs, rfl⟩
  | @guard id cond branch conds action guard below ih =>
    -- a guard adds its condition, which stands where an expression must
    have hkind := guard?_eq_some guard
    have hfits := hwf.fits id _ hid hkind
    obtain ⟨haction, hconds⟩ := ih (hid.of_mem (by simp [parts_of_guard? guard]))
      (hfits .statement branch (by simp [Kind.slots, Stmt.slots]))
    refine ⟨haction, fun c hc => ?_⟩
    rcases List.mem_cons.1 hc with rfl | hc
    · exact hfits .expression c (by simp [Kind.slots, Stmt.slots])
    · exact hconds c hc
  | bare => exact ⟨hstmt, by simp⟩

end Guarded

end Tree

end LoopToStream
