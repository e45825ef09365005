import LoopToStream.Proofs.Pipeline.Declaring

/-!
# Applying what is reported

A loop that is reported has passed every check, the plan that is made when the finding is applied
is a plan for it, and such a plan meets no obstacle. Put together, a finding can always be applied
to the tree in which it was found:

* `Inspector.exists_apply` — applying succeeds, and afterwards the pipeline is where the loop was;
* `Inspector.applies_of_reported` — the tree is well-formed again, with the statement in it that
  the outcome names and without the loop;
* `Inspector.text_of_reported` — the statement is the pipeline that is spelled from the texts that
  the parts of the loop had.
-/

namespace LoopToStream

open Pipeline (Ends Installed Planned endingOf savedComments foldedInto)

namespace Inspector

variable {inspector : Inspector} {tree next : Tree} {loop : NodeId} {finding : Finding}
  {candidate : Candidate} {ending : Pipeline.Ending} {outcome : Outcome}

/-! ### The change as a whole -/

/-- **What has been done** when the loop of a finding has become a pipeline. -/
structure Applied (inspector : Inspector) (tree : Tree) (candidate : Candidate)
    (ending : Pipeline.Ending) (outcome : Outcome) (next : Tree) : Prop where
  planned : ∃ plan, Planned inspector.analyzer tree candidate ending plan
  installed : Installed tree inspector.options.collectorStyle candidate ending
    outcome.explicitLambda outcome.replacement next
  extended : Pipeline.Extends candidate.param tree next
  revision_eq : outcome.revision = next.revision
  folded_eq : outcome.folded = ending.fold.isSome
  /-- Types are only written where a literal without them is ambiguous. -/
  typed_iff : outcome.explicitLambda = true ↔
    candidate.kind = .generalAction ∧ "forEach" ∈ inspector.analyzer.symbols.ambiguousSinks

/-- Once there is a plan, applying is carrying it out. -/
theorem apply_eq {plan : Pipeline} (hplan : inspector.planFor tree finding = .ok plan) :
    inspector.apply finding tree =
      plan.install inspector.analyzer.symbols inspector.options tree := by
  rw [apply, TreeChange.bind_of_ok TreeChange.get_eq,
    TreeChange.bind_of_ok (TreeChange.liftM_of_ok hplan)]

/-- What is applied has been planned. -/
theorem exists_planFor_of_apply (happly : inspector.apply finding tree = .ok outcome next) :
    ∃ plan, inspector.planFor tree finding = .ok plan := by
  rw [apply, TreeChange.bind_of_ok TreeChange.get_eq] at happly
  obtain ⟨plan, mid, hplan, -⟩ := TreeChange.bind_eq_ok.1 happly
  exact ⟨plan, (TreeChange.ofAttempt_eq_ok.1 hplan).1⟩

/-- **What has been planned can be carried out**, where the loop hangs in the tree. -/
theorem exists_apply_of_planFor {plan : Pipeline} (hwf : tree.WellFormed)
    (hattached : tree.Attached finding.loop)
    (hplanFor : inspector.planFor tree finding = .ok plan) :
    ∃ candidate ending outcome next, inspector.candidate tree finding.loop = .ok candidate ∧
      candidate.loop = finding.loop ∧ candidate.kind = finding.kind ∧
      endingOf inspector.analyzer inspector.options tree candidate = .ok ending ∧
      inspector.apply finding tree = .ok outcome next ∧
      Applied inspector tree candidate ending outcome next := by
  obtain ⟨candidate, hcandidate, hkind, hplan⟩ := planFor_eq_ok hplanFor
  have hfound := Candidate.found_of_eq_ok hcandidate
  -- the plan that has been made is the one that the checks allow for
  obtain ⟨plan', ending, hplan', hending, hends, hfollows⟩ :=
    Pipeline.exists_of inspector.options hwf hattached hfound
  obtain rfl := Except.ok.inj (hplan.symm.trans hplan')
  have hloop := hfound.loop_eq
  rw [← hloop] at hattached hfound
  have hplanned : Planned inspector.analyzer tree candidate ending plan :=
    ⟨hwf, hattached, hfound, hends, hfollows⟩
  obtain ⟨outcome, next, hinstall, hinstalled, hnext, hfolded, htyped⟩ :=
    hplanned.exists_install inspector.analyzer.symbols inspector.options
  -- the function that the plan puts in place of the action binds the parameter of the loop
  have hextends := Pipeline.extends_of_install (hfollows.binds hends) hinstall
  rw [hfollows.param_eq] at hextends
  exact ⟨candidate, ending, outcome, next, hcandidate, hloop, hkind, hending,
    (apply_eq hplanFor).trans hinstall, ⟨plan, hplanned⟩, hinstalled, hextends, hnext,
    hfolded, htyped⟩

/-- **A finding can be applied** to the tree in which it was found. -/
theorem exists_apply (hwf : tree.WellFormed) (hattached : tree.isAttached loop = .ok true)
    (hreported : inspector.inspect tree loop = .ok finding) :
    ∃ candidate ending outcome next, inspector.candidate tree loop = .ok candidate ∧
      candidate.loop = loop ∧ candidate.kind = finding.kind ∧
      endingOf inspector.analyzer inspector.options tree candidate = .ok ending ∧
      inspector.apply finding tree = .ok outcome next ∧
      Applied inspector tree candidate ending outcome next := by
  -- what was reported is found again, and there is a plan for it
  obtain ⟨candidate, hcandidate, hfound, hkind, rfl, hrevision⟩ := inspect_eq_ok hreported
  have hattached : tree.Attached finding.loop :=
    (hwf.isAttached_eq_true (Tree.lt_size_of_kind? hfound.kind?_eq)).1 hattached
  obtain ⟨plan, ending, hplan, -⟩ := Pipeline.exists_of inspector.options hwf hattached hfound
  have hplanFor : inspector.planFor tree finding = .ok plan := by
    rw [planFor_eq hcandidate hkind rfl hrevision, hplan]
  exact exists_apply_of_planFor hwf hattached hplanFor

/-- **What has been applied** to a loop that hangs in the tree. -/
theorem applied_of_apply (hwf : tree.WellFormed)
    (hattached : tree.isAttached finding.loop = .ok true)
    (happly : inspector.apply finding tree = .ok outcome next) :
    ∃ candidate ending, inspector.candidate tree finding.loop = .ok candidate ∧
      candidate.loop = finding.loop ∧ candidate.kind = finding.kind ∧
      endingOf inspector.analyzer inspector.options tree candidate = .ok ending ∧
      Applied inspector tree candidate ending outcome next := by
  obtain ⟨plan, hplanFor⟩ := exists_planFor_of_apply happly
  obtain ⟨found, hfound, -⟩ := planFor_eq_ok hplanFor
  -- a change is determined by the tree it is made to, so this is the one that is known to exist
  have hlt := Tree.lt_size_of_kind? (Candidate.found_of_eq_ok hfound).kind?_eq
  obtain ⟨candidate, ending, outcome', next', hcandidate, hloop, hkind, hending, happly',
      happlied⟩ :=
    exists_apply_of_planFor hwf ((hwf.isAttached_eq_true hlt).1 hattached) hplanFor
  rw [happly] at happly'
  cases happly'
  exact ⟨candidate, ending, hcandidate, hloop, hkind, hending, happlied⟩

/-! ### The tree afterwards -/

/-- **A reported loop can be converted.** Applying the finding to the tree in which it was found
succeeds. The tree is well-formed again, with the new statement in it and without the loop, and one
revision on; it is two revisions on if a parameter had to be written with its type. -/
theorem applies_of_reported (inspector : Inspector) {tree : Tree} {loop : NodeId}
    {finding : Finding} (hwf : tree.WellFormed) (hattached : tree.isAttached loop = .ok true)
    (hreported : inspector.inspect tree loop = .ok finding) :
    ∃ outcome next, inspector.apply finding tree = .ok outcome next ∧
      next.WellFormed ∧
      next.isAttached loop = .ok false ∧
      next.isAttached outcome.replacement = .ok true ∧
      next.revision = tree.revision + (if outcome.explicitLambda then 2 else 1) ∧
      outcome.revision = next.revision ∧
      (outcome.explicitLambda = true ↔ finding.kind = .generalAction ∧
        "forEach" ∈ inspector.analyzer.symbols.ambiguousSinks) := by
  obtain ⟨candidate, ending, outcome, next, hcandidate, rfl, hkind, -, happly, happlied⟩ :=
    exists_apply hwf hattached hreported
  have hinstalled := happlied.installed
  have hfound := Candidate.found_of_eq_ok hcandidate
  -- the loop is still in the table, so there is an answer to whether it hangs in the tree
  have hlt : candidate.loop.index < next.size :=
    (Tree.lt_size_of_kind? hfound.kind?_eq).trans_le hinstalled.size_le
  refine ⟨outcome, next, happly, hinstalled.wellFormed, ?_, ?_, hinstalled.revision_eq,
    happlied.revision_eq, ?_⟩
  · rw [hinstalled.wellFormed.isAttached_eq hlt]
    simp [hinstalled.detached]
  · exact (hinstalled.wellFormed.isAttached_eq_true
      (hinstalled.wellFormed.lt_size hinstalled.attached)).2 hinstalled.attached
  · rw [happlied.typed_iff, hkind]

/-- The loop `for (String x : xs) { // short` and, on the next line, `if (x.isEmpty()) print(x); }`,
as the only statement of a block. -/
def shortLoop : Tree where
  nodes := #[
    ⟨.expr (.name "xs" (some ⟨0⟩)), some ⟨9⟩, Tree.placeOf 0⟩,
    ⟨.expr (.name "x" (some ⟨1⟩)), some ⟨2⟩, Tree.placeOf 1⟩,
    ⟨.expr (.call ⟨some ⟨1⟩, "isEmpty", [], some ⟨0⟩⟩), some ⟨6⟩, Tree.placeOf 2⟩,
    ⟨.expr (.name "x" (some ⟨1⟩)), some ⟨4⟩, Tree.placeOf 3⟩,
    ⟨.expr (.call ⟨none, "print", [⟨3⟩], some ⟨1⟩⟩), some ⟨5⟩, Tree.placeOf 4⟩,
    ⟨.stmt (.expr ⟨4⟩), some ⟨6⟩, Tree.placeOf 5⟩,
    ⟨.stmt (.branch (some ⟨2⟩) (some ⟨5⟩) none), some ⟨8⟩, Tree.placeOf 6⟩,
    ⟨.comment "// short", some ⟨8⟩, Tree.placeOf 7⟩,
    ⟨.stmt (.block [⟨7⟩, ⟨6⟩]), some ⟨9⟩, Tree.placeOf 8⟩,
    ⟨.stmt (.forEach ⟨⟨1⟩, some ⟨0⟩, some ⟨8⟩⟩), some ⟨10⟩, Tree.placeOf 9⟩,
    ⟨.stmt (.block [⟨9⟩]), none, Tree.placeOf 10⟩]
  vars := #[⟨"xs", .simple "List", .parameter, false⟩,
    ⟨"x", .simple "String", .loopParameter, false⟩]
  root := ⟨10⟩
  scope := .unknown
  revision := 0

/-- What is looked at with, where `x.isEmpty()` and `print(x)` are known and throw nothing. -/
def knowing (ambiguousSinks : List String) : Inspector :=
  let isEmpty : Signature := ⟨"String", "isEmpty", [], 0, [], some (.simple "boolean"), false⟩
  let print : Signature := ⟨"Printer", "print", [.simple "String"], 0, [], none, false⟩
  ⟨⟨⟨.standard, #[isEmpty, print], ambiguousSinks⟩, Options.standard.flow⟩, .standard⟩

/-- It takes two changes to convert the loop where `forEach` is ambiguous. -/
theorem applies_shortLoop :
    ∃ finding outcome next, (knowing ["forEach"]).inspect shortLoop ⟨9⟩ = .ok finding ∧
      (knowing ["forEach"]).apply finding shortLoop = .ok outcome next ∧ next.WellFormed ∧
      next.isAttached ⟨9⟩ = .ok false ∧ next.isAttached outcome.replacement = .ok true ∧
      next.revision = 2 := by
  obtain ⟨finding, hreported, hkind⟩ :
      ∃ finding, (knowing ["forEach"]).inspect shortLoop ⟨9⟩ = .ok finding ∧
      finding.kind = .generalAction := ⟨_, by cbv, rfl⟩
  have hwf : shortLoop.WellFormed := .of_isInOrder (by decide)
  obtain ⟨outcome, next, happly, hnext, hloop, hstmt, hrevision, -, htyped⟩ :=
    applies_of_reported (knowing ["forEach"]) hwf (by cbv) hreported
  refine ⟨finding, outcome, next, hreported, happly, hnext, hloop, hstmt, ?_⟩
  rw [hrevision, htyped.2 ⟨hkind, by decide⟩]
  rfl

/-! ### The text afterwards -/

/-- **The pipeline is spelled from the parts of the loop.** When a finding has been applied, the new
statement has the text that is put together from the texts of the parts before the change. In a
block it is where the loop was or, folded into a declaration, where the declaration was, and the
comments that are in no part that is kept stand in front of it. -/
theorem text_of_reported (inspector : Inspector) {tree : Tree} {loop : NodeId}
    {finding : Finding} (hwf : tree.WellFormed) (hattached : tree.isAttached loop = .ok true)
    (hreported : inspector.inspect tree loop = .ok finding) :
    ∃ candidate ending outcome next text,
      inspector.candidate tree loop = .ok candidate ∧ candidate.kind = finding.kind ∧
      endingOf inspector.analyzer inspector.options tree candidate = .ok ending ∧
      Ends inspector.analyzer tree candidate ending ∧
      inspector.apply finding tree = .ok outcome next ∧
      outcome.folded = ending.fold.isSome ∧
      (outcome.explicitLambda = true ↔ finding.kind = .generalAction ∧
        "forEach" ∈ inspector.analyzer.symbols.ambiguousSinks) ∧
      Spelling.whole tree inspector.options.collectorStyle candidate ending
        outcome.explicitLambda = .ok text ∧
      next.text outcome.replacement = .ok text ∧
      Tree.InPlace tree next (foldedInto ending.fold ++ [loop])
        (savedComments tree candidate ending ++ [outcome.replacement]) := by
  obtain ⟨candidate, ending, outcome, next, hcandidate, rfl, hkind, hending, happly, happlied⟩ :=
    exists_apply hwf hattached hreported
  obtain ⟨text, hspelled, hprints⟩ := happlied.installed.text
  obtain ⟨plan, hplanned⟩ := happlied.planned
  exact ⟨candidate, ending, outcome, next, text, hcandidate, hkind, hending, hplanned.ends, happly,
    happlied.folded_eq, hkind ▸ happlied.typed_iff, hspelled, hprints.text_eq,
    happlied.installed.inPlace⟩

/-- The text of the pipeline that the loop becomes where `forEach` is not ambiguous. -/
theorem text_shortLoop :
    ∃ finding outcome next, (knowing []).inspect shortLoop ⟨9⟩ = .ok finding ∧
      (knowing []).apply finding shortLoop = .ok outcome next ∧
      next.text outcome.replacement =
        .ok "xs.stream().filter(x -> x.isEmpty()).forEach(x -> print(x));" := by
  obtain ⟨finding, hreported⟩ : ∃ finding, (knowing []).inspect shortLoop ⟨9⟩ = .ok finding :=
    ⟨_, by cbv⟩
  have hwf : shortLoop.WellFormed := .of_isInOrder (by decide)
  obtain ⟨candidate, ending, outcome, next, text, hcandidate, -, hending, -, happly, -, htyped,
      hspelled, htext, -⟩ :=
    text_of_reported (knowing []) hwf (by cbv) hreported
  -- `forEach` is not ambiguous, so that the type of the parameter is left out
  have huntyped : outcome.explicitLambda = false := by
    rw [← Bool.not_eq_true, htyped]
    exact fun h => absurd h.2 (by decide)
  -- the spelling depends on the candidate and the ending only, and these are computed
  obtain ⟨candidate', hcandidate', ending', hending', hspelled'⟩ :
      ∃ candidate, (knowing []).candidate shortLoop ⟨9⟩ = .ok candidate ∧
        ∃ ending, endingOf (knowing []).analyzer (knowing []).options shortLoop candidate =
            .ok ending ∧
          Spelling.whole shortLoop .qualified candidate ending false =
            .ok "xs.stream().filter(x -> x.isEmpty()).forEach(x -> print(x));" :=
    ⟨_, by cbv, _, by cbv, by cbv⟩
  obtain rfl := Except.ok.inj (hcandidate.symm.trans hcandidate')
  obtain rfl := Except.ok.inj (hending.symm.trans hending')
  rw [huntyped] at hspelled
  obtain rfl := Except.ok.inj (hspelled.symm.trans hspelled')
  exact ⟨finding, outcome, next, hreported, happly, htext⟩

end Inspector

end LoopToStream
