import LoopToStream.Proofs.Pipeline.Typing

/-!
# Carrying out a plan

`Pipeline.install` changes the tree once, and once more where the type of a parameter has to be
written. For a plan that follows a loop it succeeds (`Planned.exists_install`), and afterwards the
pipeline is where the loop was.
-/

namespace LoopToStream

/-! ### Changes one after the other -/

namespace TreeChange

variable {α β : Type} {tree next : Tree} {a : α}

theorem bind_of_ok {x : TreeChange α} {f : α → TreeChange β} (h : x tree = .ok a next) :
    (x >>= f) tree = f a next := by
  change EStateM.bind x f tree = _
  rw [EStateM.bind, h]

/-- A change composed of two succeeds if each of them does. -/
theorem bind_eq_ok {x : TreeChange α} {f : α → TreeChange β} {b : β} :
    (x >>= f) tree = .ok b next ↔ ∃ a mid, x tree = .ok a mid ∧ f a mid = .ok b next := by
  change EStateM.bind x f tree = _ ↔ _
  rw [EStateM.bind]
  cases h : x tree with
  | ok a mid => simp
  | error refusal mid => simp

/-- A change composed of two fails with the first of them, or with the second on the tree that the
first has left. -/
theorem bind_eq_error {x : TreeChange α} {f : α → TreeChange β} {refusal : Refusal Failure} :
    (x >>= f) tree = .error refusal next ↔ x tree = .error refusal next ∨
      ∃ a mid, x tree = .ok a mid ∧ f a mid = .error refusal next := by
  change EStateM.bind x f tree = _ ↔ _
  rw [EStateM.bind]
  cases h : x tree with
  | ok a mid => simp
  | error refusal mid => simp

theorem get_eq : (get : TreeChange Tree) tree = .ok tree tree := rfl

theorem ofAttempt_of_ok {x : Attempt Failure α} (h : x = .ok a) :
    ofAttempt x tree = .ok a tree := by
  rw [h]
  rfl

theorem ofAttempt_eq_ok {x : Attempt Failure α} :
    ofAttempt x tree = .ok a next ↔ x = .ok a ∧ tree = next := by
  cases x with
  | ok b =>
    change EStateM.Result.ok b tree = _ ↔ _
    simp
  | error refusal =>
    change EStateM.Result.error refusal tree = _ ↔ _
    simp

/-- Finding something out changes nothing, also when it fails. -/
theorem ofAttempt_eq_error {x : Attempt Failure α} {refusal : Refusal Failure} :
    ofAttempt x tree = .error refusal next ↔ x = .error refusal ∧ tree = next := by
  cases x with
  | ok b =>
    change EStateM.Result.ok b tree = _ ↔ _
    simp
  | error refusal =>
    change EStateM.Result.error refusal tree = _ ↔ _
    simp

theorem liftM_of_ok {x : Attempt Failure α} (h : x = .ok a) :
    (liftM x : TreeChange α) tree = .ok a tree :=
  ofAttempt_of_ok h

theorem commit_of_ok {edit : Edit} (h : tree.commit edit = .ok next) :
    TreeChange.commit edit tree = .ok () next := by
  rw [TreeChange.commit, bind_of_ok get_eq,
    bind_of_ok (ofAttempt_of_ok (Attempt.mapReason_eq_ok.2 h))]
  rfl

theorem commit_eq_ok {edit : Edit} (h : TreeChange.commit edit tree = .ok () next) :
    tree.commit edit = .ok next := by
  rw [TreeChange.commit, bind_of_ok get_eq] at h
  obtain ⟨after, mid, hattempt, h⟩ := bind_eq_ok.1 h
  obtain ⟨hcommit, rfl⟩ := ofAttempt_eq_ok.1 hattempt
  cases h
  exact Attempt.mapReason_eq_ok.1 hcommit

/-- A commit that is refused changes nothing. -/
theorem commit_eq_error {edit : Edit} {refusal : Refusal Failure}
    (h : TreeChange.commit edit tree = .error refusal next) : next = tree := by
  rw [TreeChange.commit, bind_of_ok get_eq] at h
  rcases bind_eq_error.1 h with h | ⟨after, mid, -, h⟩
  · exact (ofAttempt_eq_error.1 h).2.symm
  · cases h

end TreeChange

namespace Pipeline

variable {analyzer : Analyzer} {tree next last : Tree} {candidate : Candidate} {ending : Ending}
  {plan : Pipeline} {style : CollectorStyle} {edit : Edit} {new stmt call f chain : NodeId}
  {function : StageFunction} {part : String} {inBlock : Bool}

/-! ### Whether the type is needed -/

theorem disambiguate_eq_false {symbols : Symbols} (h : symbols.acceptsBareLambda tree call = true) :
    disambiguate symbols plan call tree = .ok false tree := by
  rw [disambiguate, TreeChange.bind_of_ok TreeChange.get_eq, if_pos h]
  rfl

theorem disambiguate_eq_true {symbols : Symbols} {c : Call NodeId} {rest : List NodeId}
    (h : symbols.acceptsBareLambda tree call = false) (hcall : tree.call? call = some c)
    (hargs : c.args = f :: rest) (hclosure : tree.isClosure f = true)
    (hedit : explicitly tree plan f = .ok edit) (hcommit : tree.commit edit = .ok next) :
    disambiguate symbols plan call tree = .ok true next := by
  have hargument : (tree.call? call).bind (·.args.head?) = some f := by simp [hcall, hargs]
  rw [disambiguate, TreeChange.bind_of_ok TreeChange.get_eq, if_neg (by simp [h])]
  simp only [hargument, hclosure, Bool.not_true, Bool.false_eq_true, if_false]
  rw [TreeChange.bind_of_ok (TreeChange.liftM_of_ok hedit),
    TreeChange.bind_of_ok (TreeChange.commit_of_ok hcommit)]
  rfl

/-- The change of a tree that a plan makes, in the steps that it takes. -/
theorem install_eq (symbols : Symbols) (options : Options) {place : Span} {staged : Staged}
    {typed : Bool} (hloop : (tree.forEach? plan.loop).isSome)
    (hplace : tree.span plan.loop = .ok place)
    (hstaged : stagePlan options tree place plan (Edit.start tree) = .ok (staged, edit))
    (hcommit : tree.commit edit = .ok next)
    (htyped : (match staged.terminalCall with
      | some call => disambiguate symbols plan call
      | none => pure false : TreeChange Bool) next = .ok typed last) :
    plan.install symbols options tree =
      .ok ⟨staged.replacement, staged.folded, typed, last.revision⟩ last := by
  have hno : ¬ (tree.forEach? plan.loop).isNone = true := by
    simpa using Option.isSome_iff_ne_none.1 hloop
  have hspan : (liftM (tree.span plan.loop) : Attempt Failure Span) = .ok place := by
    rw [hplace]
    rfl
  -- staging runs on an edit of its own, which is then committed
  have hrun : (stagePlan options tree place plan).run (Edit.start tree) = .ok (staged, edit) :=
    hstaged
  rw [install, TreeChange.bind_of_ok TreeChange.get_eq, if_neg hno]
  dsimp only
  rw [TreeChange.bind_of_ok (TreeChange.ofAttempt_of_ok hspan),
    TreeChange.bind_of_ok (TreeChange.liftM_of_ok hrun)]
  dsimp only
  rw [TreeChange.bind_of_ok (TreeChange.commit_of_ok hcommit)]
  -- only a call at the end may get a second change
  cases hcall : staged.terminalCall with
  | none =>
    rw [hcall] at htyped
    cases htyped
    rfl
  | some call =>
    rw [hcall] at htyped
    dsimp only at htyped ⊢
    rw [TreeChange.bind_of_ok htyped]
    rfl

/-! ### The whole change -/

theorem Performed.exists_disambiguate (symbols : Symbols)
    (h : Performed analyzer tree candidate ending plan style function inBlock edit new stmt call f
      chain part next) :
    ∃ typed last, disambiguate symbols plan call next = .ok typed last ∧
      Installed tree style candidate ending typed new last ∧
      (typed = true ↔ "forEach" ∈ symbols.ambiguousSinks) := by
  have hcall := Tree.call?_eq_some.2 h.each.call_kind
  -- the call at the end is one of `forEach`, so that name decides
  have haccepts : symbols.acceptsBareLambda next call =
      !symbols.ambiguousSinks.contains "forEach" := by
    simp [Symbols.acceptsBareLambda, hcall]
  cases hambiguous : symbols.ambiguousSinks.contains "forEach" with
  | false =>
    refine ⟨false, next, disambiguate_eq_false (by rw [haccepts, hambiguous]; rfl), h.installed, ?_⟩
    simpa using hambiguous
  | true =>
    obtain ⟨edit, last, lambda, text, hedit, hcommit, hretyped, htext, hprints⟩ := h.exists_retyped
    refine ⟨true, last, ?_, h.installed_typed hretyped hedit hprints htext, ?_⟩
    · exact disambiguate_eq_true (by rw [haccepts, hambiguous]; rfl) hcall rfl h.each.closure hedit
        hcommit
    · simpa using hambiguous

namespace Planned

variable (h : Planned analyzer tree candidate ending plan)
include h

/-- **Putting the pipeline in the place of the loop succeeds.** -/
theorem exists_install (symbols : Symbols) (options : Options) :
    ∃ outcome last, plan.install symbols options tree = .ok outcome last ∧
      Installed tree options.collectorStyle candidate ending outcome.explicitLambda
        outcome.replacement last ∧
      outcome.revision = last.revision ∧ outcome.folded = ending.fold.isSome ∧
      (outcome.explicitLambda = true ↔
        candidate.kind = .generalAction ∧ "forEach" ∈ symbols.ambiguousSinks) := by
  have hloop : (tree.forEach? plan.loop).isSome := by
    rw [Tree.forEach?_eq_some.2 h.kind?_loop]
    rfl
  obtain ⟨place, hplace⟩ := Tree.exists_span (h.wellFormed.lt_size h.loop_attached)
  cases hends : h.ends with
  | @performed function action function_runs =>
    -- the call at the end gets its types in a second commit, if it could be read in two ways
    obtain ⟨inBlock, new, edit, next, stmt, call, f, chain, part, hstaged, hcommit, hperformed⟩ :=
      h.exists_performed options.collectorStyle options place rfl function_runs
    obtain ⟨typed, last, hdone, hinstalled, htyped⟩ := hperformed.exists_disambiguate symbols
    refine ⟨_, last, install_eq symbols options hloop hplace hstaged hcommit hdone, hinstalled, rfl,
      rfl, ?_⟩
    rw [htyped]
    simp [Candidate.kind, action, LoopAction.kind]
  | @gathered accumulation mapper terminal fold action found mapper_maps gathers =>
    -- no second commit: elements that are gathered are no general action
    have hno : false = true ↔
        candidate.kind = .generalAction ∧ "forEach" ∈ symbols.ambiguousSinks := by
      simp [Candidate.kind, action, LoopAction.kind]
    have hgcall := h.wellFormed.grounded ((h.found.action_attached h.wellFormed h.attached).reaches
      found.reaches_call)
    cases gathers with
    | appended =>
      have hqualifier : ∀ q ∈ accumulation.qualifier.toList, tree.Grounded q := fun q hq =>
        hgcall.of_mem_parts (by simp [found.parts_call, Option.mem_toList.1 hq])
      obtain ⟨new, edit, next, hstaged, hcommit, hinstalled⟩ :=
        h.exists_appended options place rfl rfl
        (fun q hq => found.precedence_eq (Option.mem_toList.1 hq) (hqualifier q hq))
        fun q hq => found.unmarked (Option.mem_toList.1 hq) (hqualifier q hq)
      exact ⟨_, next, install_eq symbols options hloop hplace hstaged hcommit rfl, hinstalled, rfl,
        rfl, hno⟩
    | folded target site =>
      obtain ⟨edit, next, hstaged, hcommit, hinstalled⟩ :=
        h.exists_folded options place rfl rfl site
      exact ⟨_, next, install_eq symbols options hloop hplace hstaged hcommit rfl, hinstalled, rfl,
        rfl, hno⟩

end Planned

end Pipeline

end LoopToStream
