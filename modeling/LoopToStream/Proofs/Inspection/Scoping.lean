import LoopToStream.Proofs.Inspection.Applying
import LoopToStream.Proofs.Pipeline.Scoping

/-!
# The parameter stays bound

A loop declares its parameter, and the pipeline that takes its place declares it anew in each of its
function literals, or does without it. `Inspector.bound_of_apply` says that no reference is left
over: whichever finding is applied, what refers to the parameter of the loop afterwards stands below
a literal that has it among its parameters. The loop must have had the parameter for itself
(`Tree.Owns`), since a reference behind the loop, say, stays where it is.

* `Pipeline.Planned.not_free_replacement` — in the pipeline, the parameter is not free.
* `Pipeline.Planned.not_free_outside` — around it there are no references, as there were none.
* `Tree.exists_binder` — so each reference has a literal above it that binds the parameter.
-/

namespace LoopToStream

namespace Pipeline

variable {analyzer : Analyzer} {tree next : Tree} {candidate : Candidate} {ending : Ending}
  {plan : Pipeline} {style : CollectorStyle} {typed : Bool} {replacement a : NodeId}

namespace Planned

variable (h : Planned analyzer tree candidate ending plan)
  (hown : tree.Owns candidate.loop ⟨candidate.param, some candidate.source, some candidate.body⟩)
  (hinstalled : Installed tree style candidate ending typed replacement next)
  (hextends : Extends candidate.param tree next)
include h hown hinstalled hextends

/-- **Around the pipeline the parameter is not free.** By induction on the code there, where each
part is around the pipeline as well, or is a comment or the pipeline itself. -/
theorem not_free_outside (hne : candidate.loop ≠ tree.root)
    (ha : tree.Outside (given candidate ending) a) : ¬ next.Free candidate.param a := by
  have hrevised := h.revised hinstalled hne
  have hg := hinstalled.wellFormed.grounded (hrevised.attached ha)
  induction hg with
  | @layer a kind here below ih =>
    intro hfree
    cases hfree with
    | here refers =>
      -- a reference would have been in the body of the loop
      rw [Tree.var?_congr (hextends.outline_eq a (h.wellFormed.lt_size ha.attached))] at refers
      obtain ⟨body, hbody, hreach⟩ := hown.refers a ha.attached refers
      obtain rfl := Option.some.inj hbody
      refine ha.not_below candidate.loop (by simp) (hreach.head ?_)
      simp [h.found.parts_eq]
    | @part _ c not_binds hc free =>
      have hattached := (hrevised.attached ha).of_mem hc
      rcases hrevised.mem_parts_or_placed ha hc with hold | hplaced
      · by_cases hgiven : c ∈ given candidate ending
        · -- of what gives way, only a declaration is still there
          rcases List.mem_append.1 hgiven with hfolded | hloop
          · rw [hinstalled.folded_eq c hfolded] at free
            exact h.not_free_replacement hown hinstalled hextends free
          · rw [List.mem_singleton.1 hloop] at hattached
            exact hinstalled.detached hattached
        · have hout := ha.of_mem h.wellFormed h.given_attached hold hgiven
          exact ih c (Tree.parts_eq_children here ▸ hc) hout free
      · rcases List.mem_append.1 hplaced with hcomment | hnew
        · exact h.not_free_comment hextends (inFront_subset hcomment) free
        · rw [List.mem_singleton.1 hnew] at free
          exact h.not_free_replacement hown hinstalled hextends free

/-- **The parameter is not free in the tree.** -/
theorem not_free_root : ¬ next.Free candidate.param next.root := by
  by_cases hroot : candidate.loop = tree.root
  · rw [hinstalled.root_eq_new hroot]
    exact h.not_free_replacement hown hinstalled hextends
  · rw [hinstalled.root_eq hroot]
    exact h.not_free_outside hown hinstalled hextends hroot
      (h.revised hinstalled hroot).outside_root

end Planned

end Pipeline

namespace Inspector

/-- **The parameter of a loop never becomes unbound.** After a finding has been applied, each name
or field that refers to the parameter is below a function literal with the parameter among its own.
-/
theorem bound_of_apply (inspector : Inspector) {tree next : Tree} {finding : Finding}
    {outcome : Outcome} {loop : ForEach NodeId} {n : NodeId} (hwf : tree.WellFormed)
    (hattached : tree.isAttached finding.loop = .ok true) (hown : tree.Owns finding.loop loop)
    (happly : inspector.apply finding tree = .ok outcome next) (hn : next.Attached n)
    (hrefers : (next.expr? n).bind Expr.var? = some loop.var) :
    ∃ m params explicitTypes body, next.Attached m ∧
      next.kind? m = some (.expr (.lambda params explicitTypes body)) ∧ loop.var ∈ params ∧
      next.StrictlyReaches m n := by
  obtain ⟨candidate, ending, -, hloop, -, -, happlied⟩ := applied_of_apply hwf hattached happly
  obtain ⟨plan, hplanned⟩ := happlied.planned
  rw [← hloop] at hown
  -- the loop is the one that the candidate is made of
  obtain rfl := Option.some.inj (hown.here.symm.trans hplanned.found.forEach)
  have hno := hplanned.not_free_root hown happlied.installed happlied.extended
  obtain ⟨m, hm, ⟨params, explicitTypes, body, hkind, hmem⟩, hmn⟩ :=
    Tree.exists_binder hn hrefers hno
  exact ⟨m, params, explicitTypes, body, hm, hkind, hmem, hmn⟩

/-- When `shortLoop` has been converted, its condition is in a literal of the parameter. -/
theorem bound_shortLoop :
    ∃ finding outcome next m params explicitTypes body,
      (knowing []).inspect shortLoop ⟨9⟩ = .ok finding ∧
      (knowing []).apply finding shortLoop = .ok outcome next ∧
      next.kind? m = some (.expr (.lambda params explicitTypes body)) ∧ ⟨1⟩ ∈ params ∧
      next.StrictlyReaches m ⟨1⟩ := by
  have hwf : shortLoop.WellFormed := .of_isInOrder (by decide)
  obtain ⟨finding, outcome, next, hreported, hloop, happly, hthere, hrefers⟩ :
      ∃ finding outcome next, (knowing []).inspect shortLoop ⟨9⟩ = .ok finding ∧
        finding.loop = ⟨9⟩ ∧
        (knowing []).apply finding shortLoop = .ok outcome next ∧ next.isAttached ⟨1⟩ = .ok true ∧
        (next.expr? ⟨1⟩).bind Expr.var? = some ⟨1⟩ :=
    ⟨_, _, _, by cbv, rfl, by cbv, by cbv, by rfl⟩
  obtain ⟨outcome', next', happly', hnext, -⟩ :=
    applies_of_reported (knowing []) hwf (by cbv) hreported
  cases happly.symm.trans happly'
  -- the reference to the parameter hangs in the tree afterwards
  have hn : next.Attached ⟨1⟩ := by
    refine (hnext.isAttached_eq_true ?_).1 hthere
    cases hexpr : next.expr? ⟨1⟩ with
    | none => simp [hexpr] at hrefers
    | some e => exact Tree.lt_size_of_kind? (Tree.expr?_eq_some.1 hexpr)
  -- each node of the tree is looked at
  have hdeclares : ∀ i < 11, (shortLoop.kind? ⟨i⟩).any (Tree.declares ⟨1⟩) = true →
    i = 9 := by decide
  have hbody : ∀ i < 11, (shortLoop.expr? ⟨i⟩).bind Expr.var? = some ⟨1⟩ →
      (⟨i⟩ : NodeId) ∈ shortLoop.preorder ⟨8⟩ := by decide
  -- so the loop has its parameter for itself
  have hown : shortLoop.Owns ⟨9⟩ ⟨⟨1⟩, some ⟨0⟩, some ⟨8⟩⟩ := {
    here := rfl
    kind := ⟨_, rfl, rfl⟩
    declares := fun n hn hv => congrArg NodeId.mk (hdeclares n.index (hwf.lt_size hn) hv)
    refers :=
      fun n hn hv => ⟨⟨8⟩, rfl, Tree.mem_preorder_iff.1 (hbody n.index (hwf.lt_size hn) hv)⟩ }
  obtain ⟨m, params, explicitTypes, body, -, hkind, hmem, hbelow⟩ :=
    bound_of_apply (knowing []) hwf (by rw [hloop]; cbv) (hloop ▸ hown) happly hn hrefers
  exact ⟨finding, outcome, next, m, params, explicitTypes, body, hreported, happly, hkind,
    hmem, hbelow⟩

end Inspector

end LoopToStream
