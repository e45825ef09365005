import LoopToStream.Proofs.Inspection.Applying
import LoopToStream.Proofs.Pipeline.Retyping

/-!
# Applying that fails

Applying a finding commits one edit or two, and a failure behind the first commit would leave the
tree changed. `Inspector.unchanged_of_failed` shows that there is no such failure, whatever the
finding claims:

* what is only found out changes nothing, and a commit that is refused changes nothing either, so
  that all that could matter is a failure behind the first commit (`Pipeline.install_eq_error`);
* every plan gives up its loop with the last operation that it stages
  (`Pipeline.stagePlan_gives_up`), and a commit that is let through has found the anchors of all
  operations in the tree (`Edit.isAttached_of_commit`);
* hence the loop hangs in the tree, where a plan for it meets no obstacle.

It also shows that a loop that has been converted was in the tree (`Inspector.isAttached_of_apply`).
-/

namespace LoopToStream

/-! ### Commits that are let through -/

namespace Edit

variable {edit : Edit} {tree next : Tree}

/-- A commit is only let through with operations that take place in the tree. -/
theorem isAttached_of_commit (h : tree.commit edit = .ok next) :
    ∀ op ∈ edit.ops, tree.isAttached op.anchor = .ok true := by
  obtain ⟨-, -, hops, -⟩ := of_commit h
  exact fun op hop => (passed_of_checkOps hops op hop).attached

end Edit

/-! ### Plans give up their loop -/

namespace Pipeline

variable {options : Options} {tree next : Tree} {place : Span} {plan : Pipeline}
  {edit before : Edit} {staged : Staged} {refusal : Refusal Failure} {symbols : Symbols}

/-- The operation that is staged last is one of the edit. -/
theorem mem_ops_of_last {α : Type} {op : EditOp} {a b : α}
    (h : (stageOp op >>= fun _ => (pure a : Staging α)) before = .ok (b, edit)) :
    op ∈ edit.ops := by
  cases h
  simp [Edit.addOp]

/-- What takes the place of the loop is staged with an operation on the loop. -/
theorem stageReplacement_gives_up {stmt new : NodeId}
    (h : stageReplacement tree place plan stmt before = .ok (new, edit)) :
    ∃ op ∈ edit.ops, op.anchor = plan.loop := by
  unfold stageReplacement at h
  obtain ⟨inBlock, mid, -, h⟩ := staging_bind_eq_ok.1 h
  split at h
  · obtain ⟨-, mid, -, h⟩ := staging_bind_eq_ok.1 h
    exact ⟨_, mem_ops_of_last h, rfl⟩
  · obtain ⟨block, mid, -, h⟩ := staging_bind_eq_ok.1 h
    exact ⟨_, mem_ops_of_last h, rfl⟩

/-- **Every plan gives up its loop**: what it stages comes with an operation on the loop. -/
theorem stagePlan_gives_up (h : stagePlan options tree place plan before = .ok (staged, edit)) :
    ∃ op ∈ edit.ops, op.anchor = plan.loop := by
  unfold stagePlan at h
  obtain ⟨chain, mid, -, h⟩ := staging_bind_eq_ok.1 h
  generalize plan.terminal = terminal at h
  generalize plan.fold = fold at h
  -- a plan is folded exactly if it collects; for the other combinations nothing is staged
  cases fold with
  | none =>
    cases terminal with
    | forEach function =>
      -- the new statement is staged last, in the place of the loop
      obtain ⟨call, mid, -, h⟩ := staging_bind_eq_ok.1 h
      obtain ⟨stmt, mid, -, h⟩ := staging_bind_eq_ok.1 h
      obtain ⟨new, last, hreplace, h⟩ := staging_bind_eq_ok.1 h
      cases h
      exact stageReplacement_gives_up hreplace
    | collect collector => simp [violate] at h
    | addAll receiver =>
      obtain ⟨collected, mid, -, h⟩ := staging_bind_eq_ok.1 h
      obtain ⟨call, mid, -, h⟩ := staging_bind_eq_ok.1 h
      obtain ⟨stmt, mid, -, h⟩ := staging_bind_eq_ok.1 h
      obtain ⟨new, last, hreplace, h⟩ := staging_bind_eq_ok.1 h
      cases h
      exact stageReplacement_gives_up hreplace
  | some fold =>
    cases terminal with
    | forEach function => simp [violate] at h
    | addAll receiver => simp [violate] at h
    | collect collector =>
      obtain ⟨collected, mid, -, h⟩ := staging_bind_eq_ok.1 h
      obtain ⟨-, mid, -, h⟩ := staging_bind_eq_ok.1 h
      obtain ⟨-, mid, -, h⟩ := staging_bind_eq_ok.1 h
      -- a pipeline that is folded has the loop removed as its last operation
      exact ⟨_, mem_ops_of_last h, rfl⟩

/-- A plan is only let through where its loop hangs in the tree. -/
theorem isAttached_loop_of_commit
    (hstaged : stagePlan options tree place plan before = .ok (staged, edit))
    (hcommit : tree.commit edit = .ok next) : tree.isAttached plan.loop = .ok true := by
  obtain ⟨op, hop, hanchor⟩ := stagePlan_gives_up hstaged
  rw [← hanchor]
  exact Edit.isAttached_of_commit hcommit op hop

/-- The code for a plan has been staged, and the edit has been let through. -/
def Commits (options : Options) (tree : Tree) (plan : Pipeline) (next : Tree) : Prop :=
  ∃ place staged edit, tree.span plan.loop = .ok place ∧
    stagePlan options tree place plan (Edit.start tree) = .ok (staged, edit) ∧
    tree.commit edit = .ok next

theorem Commits.isAttached_loop (h : plan.Commits options tree next) :
    tree.isAttached plan.loop = .ok true := by
  obtain ⟨place, staged, edit, -, hstaged, hcommit⟩ := h
  exact isAttached_loop_of_commit hstaged hcommit

/-- What has been carried out has been let through. -/
theorem isAttached_of_install {outcome : Outcome}
    (h : plan.install symbols options tree = .ok outcome next) :
    tree.isAttached plan.loop = .ok true := by
  obtain ⟨place, staged, edit, mid, hstaged, hcommit, -⟩ := install_eq_ok h
  exact isAttached_loop_of_commit hstaged hcommit

/-- **A failure that leaves a trace** comes after the first commit. -/
theorem install_eq_error (h : plan.install symbols options tree = .error refusal next) :
    next = tree ∨ ∃ mid, plan.Commits options tree mid :=
  (install_failed_cases h).imp_right fun ⟨place, staged, edit, _, hplace, hstaged, hcommit, _⟩ =>
    ⟨next, place, staged, edit, hplace, hstaged, hcommit⟩

end Pipeline

/-! ### Failures leave no trace -/

namespace Inspector

/-- **A loop that has been converted was in the tree.** -/
theorem isAttached_of_apply {inspector : Inspector} {tree next : Tree} {finding : Finding}
    {outcome : Outcome} (happly : inspector.apply finding tree = .ok outcome next) :
    tree.isAttached finding.loop = .ok true := by
  obtain ⟨plan, hplanFor⟩ := exists_planFor_of_apply happly
  obtain ⟨candidate, hcandidate, -, hplan⟩ := planFor_eq_ok hplanFor
  have hloop : plan.loop = finding.loop :=
    (Pipeline.loop_of_eq_ok hplan).trans (Candidate.found_of_eq_ok hcandidate).loop_eq
  exact hloop ▸ Pipeline.isAttached_of_install ((apply_eq hplanFor).symm.trans happly)

/-- **A failure leaves no trace**, whatever the finding claims: the tree is what it was. And once
the first edit has been let through there is no failure any more. -/
theorem unchanged_of_failed (inspector : Inspector) {tree : Tree} (hwf : tree.WellFormed)
    (finding : Finding) :
    (∀ refusal next, inspector.apply finding tree = .error refusal next → next = tree) ∧
      ∀ plan mid, inspector.planFor tree finding = .ok plan →
        plan.Commits inspector.options tree mid →
          ∃ outcome next, inspector.apply finding tree = .ok outcome next := by
  -- a plan that is let through is one for a loop in the tree
  have hthrough : ∀ plan mid, inspector.planFor tree finding = .ok plan →
      plan.Commits inspector.options tree mid →
        ∃ outcome next, inspector.apply finding tree = .ok outcome next := by
    intro plan mid hplanFor hcommits
    obtain ⟨candidate, hcandidate, -, hplan⟩ := planFor_eq_ok hplanFor
    have hfound := Candidate.found_of_eq_ok hcandidate
    have hattached : tree.Attached finding.loop := by
      have hloop := hcommits.isAttached_loop
      rw [Pipeline.loop_of_eq_ok hplan, hfound.loop_eq] at hloop
      exact (hwf.isAttached_eq_true (Tree.lt_size_of_kind? hfound.kind?_eq)).1 hloop
    obtain ⟨-, -, outcome, next, -, -, -, -, happly, -⟩ :=
      exists_apply_of_planFor hwf hattached hplanFor
    exact ⟨outcome, next, happly⟩
  refine ⟨fun refusal next hfailed => ?_, hthrough⟩
  -- a failure comes from making the plan, which only looks at the tree, or from carrying it out
  have happly := hfailed
  rw [apply, TreeChange.bind_of_ok TreeChange.get_eq] at hfailed
  rcases TreeChange.bind_eq_error.1 hfailed with hfailed | ⟨plan, mid, hplan, hinstall⟩
  · exact (TreeChange.ofAttempt_eq_error.1 hfailed).2.symm
  obtain ⟨hplanFor, rfl⟩ := TreeChange.ofAttempt_eq_ok.1 hplan
  rcases Pipeline.install_eq_error hinstall with hsame | ⟨mid, hcommits⟩
  · exact hsame
  · -- with the first edit let through the whole would not have failed
    obtain ⟨outcome, last, hdone⟩ := hthrough plan mid hplanFor hcommits
    rw [hdone] at happly
    cases happly

/-- A finding from another revision is refused, and the short loop is as it was. With the revision
set right, the plan is let through and nothing fails. -/
theorem unchanged_shortLoop :
    ∃ finding, (∃ refusal, (knowing ["forEach"]).apply { finding with revision := 7 } shortLoop =
        .error refusal shortLoop) ∧
      ∃ outcome next, (knowing ["forEach"]).apply finding shortLoop = .ok outcome next := by
  have hwf : shortLoop.WellFormed := .of_isInOrder (by decide)
  obtain ⟨finding, hreported⟩ :
      ∃ finding, (knowing ["forEach"]).inspect shortLoop ⟨9⟩ = .ok finding :=
    ⟨_, by cbv⟩
  refine ⟨finding, ?_, ?_⟩
  · -- the finding says another revision than the tree
    obtain ⟨refusal, next, hfailed⟩ : ∃ refusal next,
        (knowing ["forEach"]).apply { finding with revision := 7 } shortLoop =
          .error refusal next :=
      ⟨_, _, rfl⟩
    obtain rfl := (unchanged_of_failed (knowing ["forEach"]) hwf _).1 refusal next hfailed
    exact ⟨refusal, hfailed⟩
  · -- the first edit of the plan is let through
    obtain ⟨plan, mid, hplan, hcommits⟩ : ∃ plan mid,
        (knowing ["forEach"]).planFor shortLoop finding = .ok plan ∧
          plan.Commits (knowing ["forEach"]).options shortLoop mid := by
      cases Except.ok.inj (hreported.symm.trans (by cbv))
      exact ⟨_, _, by cbv, _, _, _, by cbv, by cbv, by cbv⟩
    exact (unchanged_of_failed (knowing ["forEach"]) hwf finding).2 plan mid hplan hcommits

end Inspector

end LoopToStream
