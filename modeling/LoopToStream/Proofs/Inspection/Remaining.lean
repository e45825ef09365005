import LoopToStream.Proofs.Inspection.Applying
import LoopToStream.Proofs.Pipeline.Landmarks

/-!
# Which loops remain

A rewrite gives up blocks, `if`s, the call that adds, and at times an initial value, and puts
everything else into another shape. Loops may stand anywhere in what is put there: in the iterated
expression, in conditions, in the value, in the action. `Inspector.loops_of_applied` says that the
loop of the finding is the only one that is missing afterwards, and that the others are listed in
the order that they had.

The nested loop at the end (`Inspector.nestedLoop`) is one where a loop moves into the action of the
one around it.
-/

namespace LoopToStream

namespace Inspector

/-- **A rewrite removes its own loop and no other.** After a finding has been applied, the loops of
the tree are those of before without the loop of the finding, in the same order and each once. -/
theorem loops_of_applied (inspector : Inspector) {tree next : Tree} {finding : Finding}
    {outcome : Outcome} (hwf : tree.WellFormed)
    (hattached : tree.isAttached finding.loop = .ok true)
    (happly : inspector.apply finding tree = .ok outcome next) :
    ∃ loops, tree.forEachLoops = .ok loops ∧ loops.Nodup ∧ finding.loop ∈ loops ∧
      next.WellFormed ∧ next.forEachLoops = .ok (loops.erase finding.loop) ∧
      ∀ loop ∈ loops, next.isAttached loop = .ok (decide (loop ≠ finding.loop)) := by
  obtain ⟨candidate, ending, -, hloop, -, -, happlied⟩ := applied_of_apply hwf hattached happly
  obtain ⟨plan, hplanned⟩ := happlied.planned
  have hinstalled := happlied.installed
  have hnext := hinstalled.wellFormed
  have hnodup : (tree.loopsBelow tree.root).Nodup :=
    List.filter_sublist.nodup (hwf.nodup_preorder Tree.attached_root)
  obtain ⟨front, back, hbefore, hafter⟩ := hplanned.loops hinstalled
  rw [hloop] at hbefore
  -- the loop is listed once, so that taking it out leaves what is in front of it and behind it
  have hrest : (tree.loopsBelow tree.root).erase finding.loop = front ++ back := by
    rw [hbefore] at hnodup ⊢
    have hfront := (List.nodup_cons.1 (List.nodup_middle.1 hnodup)).1
    rw [List.mem_append, not_or] at hfront
    rw [List.erase_append_right _ hfront.1, List.erase_cons_head]
  refine ⟨_, hwf.forEachLoops_eq, hnodup, by simp [hbefore], hnext, ?_, fun loop hmem => ?_⟩
  · rw [hnext.forEachLoops_eq, hafter, hrest]
  · -- the loop itself is detached, and the others are listed in the tree
    have hlt : loop.index < next.size :=
      (hwf.lt_size (Tree.mem_loopsBelow.1 hmem).1).trans_le hinstalled.size_le
    rw [hnext.isAttached_eq hlt]
    by_cases hown : loop = finding.loop
    · have hgone : ¬ next.Attached loop := by
        rw [hown, ← hloop]
        exact hinstalled.detached
      simp [hown ▸ hgone, hown]
    · have hthere : loop ∈ next.loopsBelow next.root := by
        rw [hafter, ← hrest]
        exact (List.mem_erase_of_ne hown).2 hmem
      have hattached : next.Attached loop := (Tree.mem_loopsBelow.1 hthere).1
      simp [hattached, hown]

/-- The loop `for (List y : ys) for (String x : y) print(x);` as the only statement of a block. -/
def nestedLoop : Tree where
  nodes := #[
    ⟨.expr (.name "ys" (some ⟨0⟩)), some ⟨6⟩, Tree.placeOf 0⟩,
    ⟨.expr (.name "y" (some ⟨1⟩)), some ⟨5⟩, Tree.placeOf 1⟩,
    ⟨.expr (.name "x" (some ⟨2⟩)), some ⟨3⟩, Tree.placeOf 2⟩,
    ⟨.expr (.call ⟨none, "print", [⟨2⟩], some ⟨1⟩⟩), some ⟨4⟩, Tree.placeOf 3⟩,
    ⟨.stmt (.expr ⟨3⟩), some ⟨5⟩, Tree.placeOf 4⟩,
    ⟨.stmt (.forEach ⟨⟨2⟩, some ⟨1⟩, some ⟨4⟩⟩), some ⟨6⟩, Tree.placeOf 5⟩,
    ⟨.stmt (.forEach ⟨⟨1⟩, some ⟨0⟩, some ⟨5⟩⟩), some ⟨7⟩, Tree.placeOf 6⟩,
    ⟨.stmt (.block [⟨6⟩]), none, Tree.placeOf 7⟩]
  vars := #[⟨"ys", .simple "List", .parameter, false⟩,
    ⟨"y", .simple "List", .loopParameter, false⟩,
    ⟨"x", .simple "String", .loopParameter, false⟩]
  root := ⟨7⟩
  scope := .unknown
  revision := 0

/-- When the outer loop has been converted, the inner one is still there, and it alone. -/
theorem loops_nestedLoop :
    ∃ finding outcome next, (knowing []).inspect nestedLoop ⟨6⟩ = .ok finding ∧
      (knowing []).apply finding nestedLoop = .ok outcome next ∧
      nestedLoop.forEachLoops = .ok [⟨6⟩, ⟨5⟩] ∧ next.forEachLoops = .ok [⟨5⟩] ∧
      next.isAttached ⟨5⟩ = .ok true := by
  obtain ⟨finding, hreported, hloop⟩ :
      ∃ finding, (knowing []).inspect nestedLoop ⟨6⟩ = .ok finding ∧ finding.loop = ⟨6⟩ :=
    ⟨_, by cbv, rfl⟩
  have hwf : nestedLoop.WellFormed := .of_isInOrder (by decide)
  -- the theorem says what is left, so that only the list of before is computed
  obtain ⟨-, -, outcome, next, -, -, -, -, happly, -⟩ := exists_apply hwf (by cbv) hreported
  obtain ⟨loops, hbefore, -, -, -, hafter, hattached⟩ :=
    loops_of_applied (knowing []) hwf (by rw [hloop]; cbv) happly
  obtain rfl : [⟨6⟩, ⟨5⟩] = loops := Except.ok.inj (Eq.trans (by cbv) hbefore)
  refine ⟨finding, outcome, next, hreported, happly, hbefore, ?_, ?_⟩
  · rw [hafter, hloop]
    rfl
  · rw [hattached ⟨5⟩ (by simp), hloop]
    rfl

end Inspector

end LoopToStream
