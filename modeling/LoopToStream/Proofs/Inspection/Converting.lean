import LoopToStream.Proofs.Inspection.Canceling
import LoopToStream.Proofs.Pipeline.Landmarks

/-!
# Converting until nothing is left

`Inspector.runAndApply` converts the first loop that is reported and looks at the whole tree again,
until no loop is reported. Loops may have moved into function literals meanwhile, and a loop that
was turned down may be reported later on. Still this comes to an end, and without an error:

* a round over a well-formed tree gives every loop an answer (`Inspector.exists_run`);
* the finding that it begins with can be applied, which takes its loop out of the loops of the tree
  and leaves the others as they are (`Inspector.exists_step`);
* hence there are at most as many rounds as loops (`Inspector.exists_converts`), and what is there
  in the end has been reached by such steps (`Inspector.Converts`).
-/

namespace LoopToStream

open scoped List

namespace Inspector

variable {inspector : Inspector} {tree mid next : Tree} {loop : NodeId} {finding : Finding}
  {outcome : Outcome} {outcomes : List Outcome}

/-! ### One step -/

/-- **Applying a finding takes its loop away** and leaves all other loops, in their order. -/
theorem exists_step (hwf : tree.WellFormed) (hloop : tree.Attached loop)
    (hreported : inspector.inspect tree loop = .ok finding) :
    ∃ outcome next, inspector.apply finding tree = .ok outcome next ∧ next.WellFormed ∧
      ∃ front back, tree.loopsBelow tree.root = front ++ loop :: back ∧
        next.loopsBelow next.root = front ++ back := by
  obtain ⟨candidate, ending, outcome, next, -, rfl, -, -, happly, happlied⟩ :=
    exists_apply hwf ((hwf.isAttached_eq_true (hwf.lt_size hloop)).2 hloop) hreported
  obtain ⟨plan, hplanned⟩ := happlied.planned
  exact ⟨outcome, next, happly, happlied.installed.wellFormed, hplanned.loops happlied.installed⟩

/-! ### Many steps -/

/-- One reported loop after the other is converted, each in the tree that the ones before have
left. -/
inductive Converts (inspector : Inspector) : Tree → List Outcome → Tree → Prop where
  | done {tree : Tree} : Converts inspector tree [] tree
  | step {tree mid next : Tree} {loop : NodeId} {finding : Finding} {outcome : Outcome}
      {outcomes : List Outcome} (attached : tree.Attached loop)
      (reported : inspector.inspect tree loop = .ok finding)
      (applied : inspector.apply finding tree = .ok outcome mid)
      (rest : Converts inspector mid outcomes next) :
      Converts inspector tree (outcome :: outcomes) next

/-- A step of conversion is one that `exists_step` speaks about. -/
theorem step_of_applied (hwf : tree.WellFormed) (hloop : tree.Attached loop)
    (hreported : inspector.inspect tree loop = .ok finding)
    (happly : inspector.apply finding tree = .ok outcome mid) :
    mid.WellFormed ∧ ∃ front back, tree.loopsBelow tree.root = front ++ loop :: back ∧
      mid.loopsBelow mid.root = front ++ back := by
  obtain ⟨outcome', mid', happly', hstep⟩ := exists_step hwf hloop hreported
  rw [happly] at happly'
  cases happly'
  exact hstep

namespace Converts

theorem wellFormed (h : Converts inspector tree outcomes next) (hwf : tree.WellFormed) :
    next.WellFormed := by
  induction h with
  | done => exact hwf
  | step attached reported applied rest ih =>
    exact ih (step_of_applied hwf attached reported applied).1

/-- **Each step takes one loop away.** -/
theorem loops (h : Converts inspector tree outcomes next) (hwf : tree.WellFormed) :
    next.loopsBelow next.root <+ tree.loopsBelow tree.root ∧
      outcomes.length + (next.loopsBelow next.root).length =
        (tree.loopsBelow tree.root).length := by
  induction h with
  | done => simp
  | @step _ _ _ loop _ _ _ attached reported applied rest ih =>
    obtain ⟨hmid, front, back, hbefore, hafter⟩ := step_of_applied hwf attached reported applied
    obtain ⟨hsub, hlength⟩ := ih hmid
    rw [hafter] at hsub hlength
    rw [hbefore]
    refine ⟨hsub.trans ?_, ?_⟩
    · exact (List.sublist_cons_self loop back).append_left front
    · simp only [List.length_cons, List.length_append] at hlength ⊢
      omega

end Converts

/-- A round begins with a run, which leaves the tree as it is. -/
theorem convertWithin_succ (inspector : Inspector) (hwf : tree.WellFormed) (rounds polls : Nat)
    (before : List Outcome) :
    ∃ polls', inspector.convertWithin never (rounds + 1) polls before tree =
      match inspector.reports tree (tree.loopsBelow tree.root) with
      | [] => .ok before tree
      | finding :: _ => (do
        let outcome ← inspector.apply finding
        inspector.convertWithin never rounds polls' (before ++ [outcome])) tree := by
  obtain ⟨progress, hprogress, hfindings, hcanceled⟩ := exists_run inspector hwf .empty polls
  have hrun : TreeChange.ofAttempt (inspector.run tree never .empty polls : Lookup Progress) tree =
      .ok progress tree := TreeChange.ofAttempt_of_ok (by rw [hprogress]; rfl)
  refine ⟨progress.polls, ?_⟩
  rw [convertWithin, TreeChange.bind_of_ok TreeChange.get_eq, TreeChange.bind_of_ok hrun, hfindings,
    hcanceled]
  cases inspector.reports tree (tree.loopsBelow tree.root) <;> rfl

/-- **Converting comes to an end**, where nothing is reported any more. Rounds beyond the number of
loops make no difference. By induction on that number. -/
theorem exists_converts (inspector : Inspector) (hwf : tree.WellFormed) :
    ∃ outcomes next, Converts inspector tree outcomes next ∧
      inspector.reports next (next.loopsBelow next.root) = [] ∧
      ∀ rounds polls before, (tree.loopsBelow tree.root).length < rounds →
        inspector.convertWithin never rounds polls before tree = .ok (before ++ outcomes) next := by
  induction hcount : (tree.loopsBelow tree.root).length using Nat.strong_induction_on
    generalizing tree with
  | _ count ih =>
    cases hreports : inspector.reports tree (tree.loopsBelow tree.root) with
    | nil =>
      -- nothing is reported: one round finds that out
      refine ⟨[], tree, .done, hreports, fun rounds polls before hrounds => ?_⟩
      obtain ⟨rounds, rfl⟩ : ∃ n, rounds = n + 1 := ⟨rounds - 1, by omega⟩
      obtain ⟨polls', hround⟩ := convertWithin_succ inspector hwf rounds polls before
      rw [hround, hreports, List.append_nil]
    | cons finding others =>
      -- the first finding is applied, which takes one loop away
      obtain ⟨loop, hloop, hreported⟩ := mem_reports.1 (hreports ▸ List.mem_cons_self :
        finding ∈ inspector.reports tree (tree.loopsBelow tree.root))
      have hattached : tree.Attached loop := (Tree.mem_loopsBelow.1 hloop).1
      obtain ⟨outcome, mid, happly, hmid, front, back, hbefore, hafter⟩ :=
        exists_step hwf hattached hreported
      have hfewer : (mid.loopsBelow mid.root).length + 1 = count := by
        rw [← hcount, hbefore, hafter]
        simp only [List.length_append, List.length_cons]
        omega
      -- what is left has fewer loops
      obtain ⟨outcomes, next, hconverts, hnone, hrest⟩ := ih _ (by omega) hmid rfl
      refine ⟨outcome :: outcomes, next, .step hattached hreported happly hconverts, hnone,
        fun rounds polls before hrounds => ?_⟩
      -- one round for this loop, and as many as it takes for the rest
      obtain ⟨rounds, rfl⟩ : ∃ n, rounds = n + 1 := ⟨rounds - 1, by omega⟩
      obtain ⟨polls', hround⟩ := convertWithin_succ inspector hwf rounds polls before
      rw [hround, hreports]
      dsimp only
      rw [TreeChange.bind_of_ok happly, hrest rounds _ _ (by omega), List.append_assoc]
      rfl

/-- There are rounds enough for all loops. -/
theorem runAndApply_eq (inspector : Inspector) (hwf : tree.WellFormed) :
    inspector.runAndApply never tree =
      inspector.convertWithin never ((tree.loopsBelow tree.root).length + 2) 0 [] tree := by
  have hloops : (liftM tree.forEachLoops : Attempt Failure (List NodeId)) =
      .ok (tree.loopsBelow tree.root) := by
    rw [hwf.forEachLoops_eq]
    rfl
  rw [runAndApply, TreeChange.bind_of_ok TreeChange.get_eq,
    TreeChange.bind_of_ok (TreeChange.ofAttempt_of_ok hloops)]

/-- **Converting settles.** It ends without an error in a well-formed tree, with one outcome for
each loop that is gone, and so with no more rewrites than there were loops. The loops that are left
are in their order, none of them is reported, and converting once more changes nothing. The bound on
the rounds is never met: more of them give the same. -/
theorem runAndApply_settles (inspector : Inspector) (hwf : tree.WellFormed) :
    ∃ outcomes next loops remaining,
      inspector.runAndApply never tree = .ok outcomes next ∧
      next.WellFormed ∧
      Converts inspector tree outcomes next ∧
      tree.forEachLoops = .ok loops ∧
      next.forEachLoops = .ok remaining ∧
      remaining <+ loops ∧
      outcomes.length + remaining.length = loops.length ∧
      (∀ log polls, ∃ progress, inspector.run next never log polls = .ok progress ∧
        progress.findings = [] ∧ progress.canceled = false) ∧
      inspector.runAndApply never next = .ok [] next ∧
      ∀ rounds polls, loops.length < rounds →
        inspector.convertWithin never rounds polls [] tree = .ok outcomes next := by
  obtain ⟨outcomes, next, hconverts, hnone, hrounds⟩ := exists_converts inspector hwf
  have hnext := hconverts.wellFormed hwf
  obtain ⟨hsub, hlength⟩ := hconverts.loops hwf
  have hquiet : ∀ log polls, ∃ progress, inspector.run next never log polls = .ok progress ∧
      progress.findings = [] ∧ progress.canceled = false := by
    intro log polls
    obtain ⟨progress, hprogress, hfindings, hcanceled⟩ := exists_run inspector hnext log polls
    exact ⟨progress, hprogress, hfindings.trans hnone, hcanceled⟩
  refine ⟨outcomes, next, _, _, ?_, hnext, hconverts, hwf.forEachLoops_eq, hnext.forEachLoops_eq,
    hsub, hlength, hquiet, ?_, fun rounds polls => hrounds rounds polls []⟩
  · rw [runAndApply_eq inspector hwf]
    exact hrounds _ 0 [] (by omega)
  · obtain ⟨polls, hround⟩ := convertWithin_succ inspector hnext
      ((next.loopsBelow next.root).length + 1) 0 []
    rw [runAndApply_eq inspector hnext, hround, hnone]

/-- The short loop is converted, and then there is no loop left. -/
theorem settles_shortLoop :
    ∃ outcome next, (knowing []).runAndApply never shortLoop = .ok [outcome] next ∧
      next.WellFormed ∧ next.forEachLoops = .ok [] ∧
      (knowing []).runAndApply never next = .ok [] next := by
  have hwf : shortLoop.WellFormed := .of_isInOrder (by decide)
  obtain ⟨outcomes, next, loops, remaining, hrun, hnext, hconverts, hloops, hremaining, -, hlength,
    hquiet, hagain, -⟩ := runAndApply_settles (knowing []) hwf
  obtain rfl : [⟨9⟩] = loops := Except.ok.inj (Eq.trans (by cbv) hloops)
  rw [List.length_singleton] at hlength
  cases hconverts with
  | done =>
    -- the loop is reported to begin with
    obtain ⟨progress, hprogress, hfindings, -⟩ := hquiet .empty 0
    obtain ⟨found, hfound, hsome⟩ : ∃ found, (knowing []).run shortLoop never .empty 0 = .ok found ∧
        found.findings.length = 1 := ⟨_, by cbv, rfl⟩
    obtain rfl := Except.ok.inj (hprogress.symm.trans hfound)
    simp [hfindings] at hsome
  | @step _ mid _ _ _ outcome outcomes attached reported applied rest =>
    -- one loop has been converted, so that there is none left to convert
    rw [List.length_cons] at hlength
    obtain rfl := List.length_eq_zero_iff.1 (by omega : outcomes.length = 0)
    obtain rfl := List.length_eq_zero_iff.1 (by omega : remaining.length = 0)
    exact ⟨outcome, next, hrun, hnext, hremaining, hagain⟩

end Inspector

end LoopToStream
