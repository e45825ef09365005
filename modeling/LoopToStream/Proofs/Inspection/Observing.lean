import LoopToStream.Proofs.Inspection.Applying
import LoopToStream.Proofs.Pipeline.Meaning

/-!
# Pipelines that see what they gather

A loop adds to its collection element by element. A pipeline gathers all of the elements first, so
that the two differ as soon as the pipeline refers to the collection before that.
`Inspector.observes_iff_of_reported` says when it does, for a variable that is added to: guards are
checked for mentioning the variable and never do, while the collection that the loop runs over and
the value that is added are not checked. `Inspector.selfReading_observed` is a loop that is reported
and should not be: the pipeline becomes the initial value of a variable that it refers to.
-/

namespace LoopToStream

namespace Pipeline

variable {analyzer : Analyzer} {tree : Tree} {param v : VarId} {value id : NodeId}
  {mapper : Option StageFunction} {qualifier : Qualifier} {method : String}

open Forwarding (isParam isParam_eq_true Bound Reduced)

/-- The element mentions itself only. -/
theorem eq_of_mentions_isParam (hg : tree.Grounded id) (h : isParam tree param id = true)
    (hv : tree.Mentions v id) : v = param := by
  obtain ⟨name, hkind⟩ := isParam_eq_true h
  rcases Tree.mentions_iff.1 (hg.mentions_skipParens.2 hv) with hv | ⟨c, hc, -⟩
  · simpa [Tree.expr?_eq_some.2 hkind, Expr.var?, eq_comm] using hv
  · simp [Tree.parts_eq_children hkind, Kind.children, Expr.children] at hc

/-- What the receiver of a call mentions, it mentions in front of `::` as well. -/
theorem exists_kept_of_bound {receiver : NodeId} (h : Bound tree receiver qualifier)
    (hv : tree.Mentions v receiver) : ∃ part ∈ qualifier.kept, tree.Mentions v part := by
  cases h with
  | type here =>
    rw [Tree.mentions_iff_of_expr here rfl] at hv
    simp [Expr.children] at hv
  | thisRef here =>
    rw [Tree.mentions_iff_of_expr here rfl] at hv
    simp [Expr.children] at hv
  | superRef here =>
    rw [Tree.mentions_iff_of_expr here rfl] at hv
    simp [Expr.children] at hv
  | name here => exact ⟨receiver, by simp [Qualifier.kept], hv⟩
  | field here owner_here => exact ⟨receiver, by simp [Qualifier.kept], hv⟩

/-- A method reference drops no variable besides the element. -/
theorem exists_kept_of_reduced (h : Reduced tree param id qualifier method) (hg : tree.Grounded id)
    (hv : tree.Mentions v id) (hne : v ≠ param) :
    ∃ part ∈ qualifier.kept, tree.Mentions v part := by
  -- the element is not what mentions the variable
  have harg : ∀ {e : Expr NodeId} {arg}, tree.kind? id = some (.expr e) → arg ∈ e.children →
      isParam tree param arg = true → ¬ tree.Mentions v arg := fun hkind hmem hparam hmentions =>
    hne (eq_of_mentions_isParam (hg.of_mem_parts (Tree.parts_eq_children hkind ▸ hmem)) hparam
      hmentions)
  -- so the variable is mentioned by a part that is not the element, which is the receiver
  cases h with
  | own here hands_on plain =>
    obtain ⟨c, hc, hmentions⟩ := (Tree.mentions_iff_of_expr here rfl).1 hv
    obtain rfl : c = _ := by simpa [Expr.children] using hc
    exact absurd hmentions (harg here hc hands_on)
  | bound here hands_on bound =>
    obtain ⟨c, hc, hmentions⟩ := (Tree.mentions_iff_of_expr here rfl).1 hv
    have hc' := hc
    simp only [Expr.children, Option.toList_some, List.singleton_append, List.mem_cons,
      List.not_mem_nil, or_false] at hc'
    rcases hc' with rfl | rfl
    · exact exists_kept_of_bound bound hmentions
    · exact absurd hmentions (harg here hc hands_on)
  | element here hands_on =>
    obtain ⟨c, hc, hmentions⟩ := (Tree.mentions_iff_of_expr here rfl).1 hv
    obtain rfl : c = _ := by simpa [Expr.children] using hc
    exact absurd hmentions (harg here hc hands_on)
  | creation here hands_on =>
    obtain ⟨c, hc, hmentions⟩ := (Tree.mentions_iff_of_expr here rfl).1 hv
    obtain rfl : c = _ := by simpa [Expr.children] using hc
    exact absurd hmentions (harg here hc hands_on)

/-- **A mapping mentions what the value mentions**, apart from the element. -/
theorem Maps.exists_kept_mentions (h : Maps analyzer tree param value mapper)
    (hg : tree.Grounded value) (hv : tree.Mentions v value) (hne : v ≠ param) :
    ∃ part ∈ mapper.toList.flatMap StageFunction.kept, tree.Mentions v part := by
  cases h with
  | element is_param => exact absurd (eq_of_mentions_isParam hg is_param hv) hne
  | literal not_param => exact ⟨value, by simp [StageFunction.kept, LambdaBody.node], hv⟩
  | reference not_param answer form =>
    obtain ⟨part, hpart, hmentions⟩ := exists_kept_of_reduced form
      (hg.of_reaches (tree.reaches_skipParens _)) (hg.mentions_skipParens.2 hv) hne
    exact ⟨part, by simpa [StageFunction.kept] using hpart, hmentions⟩

/-- A pipeline for an accumulation maps the value that is added. -/
theorem Ends.exists_gathered {candidate : Candidate} {ending : Ending}
    (h : Ends analyzer tree candidate ending) (hkind : candidate.kind = .accumulation) :
    ∃ accumulation, candidate.action = .accumulate accumulation ∧
      Accumulation.Found tree candidate.chain.action accumulation ∧
      Maps analyzer tree candidate.param accumulation.value ending.mapper := by
  cases h with
  | performed action function_runs => simp [Candidate.kind, action, LoopAction.kind] at hkind
  | gathered action found mapper_maps gathers => exact ⟨_, action, found, mapper_maps⟩

/-- **What the chain of a pipeline mentions**, of the variable that is added to: guards do not
count, and of the value only the element is dropped. -/
theorem Planned.mentions_iff {candidate : Candidate} {ending : Ending} {plan : Pipeline}
    {accumulation : Accumulation} (h : Planned analyzer tree candidate ending plan)
    (haction : candidate.action = .accumulate accumulation)
    (htarget : accumulation.target = .variable v)
    (hmapper : Maps analyzer tree candidate.param accumulation.value ending.mapper)
    (hvalue : tree.Grounded accumulation.value) :
    ((∃ part ∈ chainParts candidate ending, tree.Mentions v part) →
        tree.Mentions v candidate.source ∨ tree.Mentions v accumulation.value) ∧
      (tree.Mentions v candidate.source →
      ∃ part ∈ chainParts candidate ending, tree.Mentions v part) ∧
      (v ≠ candidate.param → tree.Mentions v accumulation.value →
        ∃ part ∈ chainParts candidate ending, tree.Mentions v part) := by
  refine ⟨?_, fun hsource => ⟨candidate.source, by simp [chainParts], hsource⟩, fun hne hv => ?_⟩
  · rintro ⟨part, hpart, hv⟩
    rcases List.mem_append.1 hpart with hpart | hpart
    · rcases List.mem_cons.1 hpart with rfl | hcond
      · exact .inl hv
      · -- a guard that mentions the variable would have been noticed
        have hnone :=
          LoopAction.referencesIn_eq_nil (haction ▸ h.found.action_eq) htarget part hcond
        have hattached := h.found.condition_attached h.wellFormed h.attached hcond
        exact absurd hv ((h.wellFormed.referencesIn_eq_nil hattached).1 hnone)
    · exact .inr (hv.of_reaches (hmapper.reaches part hpart))
  · obtain ⟨part, hpart, hmentions⟩ := hmapper.exists_kept_mentions hvalue hv hne
    exact ⟨part, List.mem_append_right _ hpart, hmentions⟩

/-- **What is collected sees the variable that is added to** exactly where the chain does, and the
chain where the collection that the loop runs over or the value does. -/
theorem Planned.exists_collected {candidate : Candidate} {ending : Ending} {plan : Pipeline}
    {style : CollectorStyle} {typed : Bool} {replacement : NodeId} {next : Tree}
    (h : Planned analyzer tree candidate ending plan)
    (hinstalled : Installed tree style candidate ending typed replacement next)
    (hkind : candidate.kind = .accumulation) :
    ∃ accumulation collected chain, candidate.action = .accumulate accumulation ∧
      tree.Attached accumulation.value ∧ Collects next replacement collected chain ∧
      next.Attached collected ∧ ∀ v, accumulation.target = .variable v →
        (next.Mentions v collected ↔ next.Mentions v chain) ∧
        (next.Mentions v chain →
          tree.Mentions v candidate.source ∨ tree.Mentions v accumulation.value) ∧
        (tree.Mentions v candidate.source → next.Mentions v chain) ∧
        (v ≠ candidate.param → tree.Mentions v accumulation.value → next.Mentions v chain) ∧
        (ending.fold.isSome = true →
          next.kind? replacement = some (.stmt (.declare v (some collected)))) := by
  have hwf := h.wellFormed
  obtain ⟨collected, chain, hcollects, hcall, hfold⟩ := hinstalled.collects hkind
  obtain ⟨accumulation, haction, hfound, hmapper⟩ := h.ends.exists_gathered hkind
  -- the value is an argument of the call that adds it
  have hvalue : tree.Attached accumulation.value := by
    have hstmt := h.found.action_attached hwf h.attached
    exact (hstmt.reaches hfound.reaches_call).of_mem
      (by simp [hfound.parts_call])
  refine ⟨accumulation, collected, chain, haction, hvalue, hcollects,
    hinstalled.attached.reaches hcollects.reaches, fun v htarget => ?_⟩
  obtain ⟨honly, hfromSource, hfromValue⟩ :=
    h.mentions_iff haction htarget hmapper (hwf.grounded hvalue)
  rw [hcall.mentions, hcall.chain_mentions]
  refine ⟨Iff.rfl, honly, hfromSource, hfromValue, fun hfolded => ?_⟩
  -- the declaration that the loop is folded into declares the variable
  obtain ⟨fold, hsome⟩ := Option.isSome_iff_exists.1 hfolded
  obtain ⟨accumulation', _, var, _, _, _, _, haction', htarget', hplace, -⟩ :=
    h.ends.exists_place hsome
  obtain rfl := LoopAction.accumulate.inj (haction.symm.trans haction')
  obtain rfl := Target.variable.inj (htarget.symm.trans htarget')
  obtain ⟨var, init, hdeclared, hnext⟩ := hfold fold hsome
  obtain ⟨rfl, -⟩ : v = var ∧ fold.initializer = init := by simpa [hplace.declares] using hdeclared
  exact hnext

end Pipeline

namespace Inspector

open Pipeline (Collects)

/-- **Whether a pipeline sees the variable that it gathers for.** It does not, neither in the chain
nor in the whole call of `collect`, if the collection that the loop runs over and the value that is
added do not mention the variable. Where they do the chain does as well, unless the variable is the
element. A pipeline that is folded becomes the initial value of the variable. -/
theorem observes_iff_of_reported (inspector : Inspector) {tree : Tree} {loop : NodeId}
    {finding : Finding} (hwf : tree.WellFormed) (hattached : tree.isAttached loop = .ok true)
    (hreported : inspector.inspect tree loop = .ok finding) (hkind : finding.kind = .accumulation) :
    ∃ candidate accumulation outcome next collected chain,
      inspector.candidate tree loop = .ok candidate ∧
      candidate.action = .accumulate accumulation ∧
      inspector.apply finding tree = .ok outcome next ∧
      Collects next outcome.replacement collected chain ∧
      ∀ v, accumulation.target = .variable v →
        (tree.referencesIn v candidate.source = .ok [] →
          tree.referencesIn v accumulation.value = .ok [] →
            next.referencesIn v chain = .ok [] ∧ next.referencesIn v collected = .ok []) ∧
        (next.referencesIn v chain = .ok [] →
          tree.referencesIn v candidate.source = .ok [] ∧
            (v ≠ candidate.param → tree.referencesIn v accumulation.value = .ok [])) ∧
        (outcome.folded = true →
          next.kind? outcome.replacement = some (.stmt (.declare v (some collected)))) := by
  obtain ⟨candidate, ending, outcome, next, hcandidate, -, hcandidateKind, -, happly, happlied⟩ :=
    exists_apply hwf hattached hreported
  have hnext := happlied.installed.wellFormed
  obtain ⟨plan, hplanned⟩ := happlied.planned
  obtain ⟨accumulation, collected, chain, haction, hvalue, hcollects, hcollected, hsees⟩ :=
    hplanned.exists_collected happlied.installed (hcandidateKind.trans hkind)
  have hsource := hplanned.found.source_attached hplanned.attached
  have hchain := hcollected.of_mem hcollects.mem_parts
  refine ⟨candidate, accumulation, outcome, next, collected, chain, hcandidate, haction, happly,
    hcollects, fun v htarget => ?_⟩
  obtain ⟨hsame, honly, hfromSource, hfromValue, hfolded⟩ := hsees v htarget
  -- no references means that the variable is not mentioned
  rw [hwf.referencesIn_eq_nil hsource, hwf.referencesIn_eq_nil hvalue,
    hnext.referencesIn_eq_nil hchain, hnext.referencesIn_eq_nil hcollected, hsame,
    happlied.folded_eq]
  refine ⟨fun hno hno' => ?_, fun hno => ⟨fun hv => hno (hfromSource hv), fun hne hv =>
    hno (hfromValue hne hv)⟩, hfolded⟩
  -- the whole call mentions the variable exactly where the chain does
  have hnone := fun hsome => (honly hsome).elim hno hno'
  exact ⟨hnone, hnone⟩

/-- In `xs.stream().filter(x -> x.isEmpty()).collect(Collectors.toList())`, which becomes the
initial value of `ys`, nothing refers to `ys`. -/
theorem not_observed_collectingLoop :
    ∃ finding outcome next collected chain,
      Inspector.inspect ⟨Pipeline.knowingAdd, .standard⟩ Pipeline.collectingLoop ⟨10⟩ =
        .ok finding ∧
      Inspector.apply ⟨Pipeline.knowingAdd, .standard⟩ finding Pipeline.collectingLoop =
        .ok outcome next ∧
      Collects next outcome.replacement collected chain ∧
      next.kind? outcome.replacement = some (.stmt (.declare ⟨2⟩ (some collected))) ∧
      next.referencesIn ⟨2⟩ chain = .ok [] ∧ next.referencesIn ⟨2⟩ collected = .ok [] := by
  have hwf : Pipeline.collectingLoop.WellFormed := .of_isInOrder (by decide)
  obtain ⟨finding, outcome', next', hreported, hkind, happly', hfolded⟩ : ∃ finding outcome next,
      Inspector.inspect ⟨Pipeline.knowingAdd, .standard⟩ Pipeline.collectingLoop ⟨10⟩ =
        .ok finding ∧
        finding.kind = .accumulation ∧
        Inspector.apply ⟨Pipeline.knowingAdd, .standard⟩ finding Pipeline.collectingLoop =
          .ok outcome next ∧ outcome.folded = true := ⟨_, _, _, by cbv, rfl, by cbv, by cbv⟩
  obtain ⟨candidate, accumulation, outcome, next, collected, chain, hcandidate, haction, happly,
      hcollects, hobserves⟩ :=
    observes_iff_of_reported ⟨Pipeline.knowingAdd, .standard⟩ hwf (by cbv) hreported hkind
  -- the target is `ys`, which neither the source nor the value refers to
  obtain ⟨candidate', hcandidate', accumulation', haction', htarget, hsource, hvalue⟩ :
      ∃ candidate,
        Inspector.candidate ⟨Pipeline.knowingAdd, .standard⟩ Pipeline.collectingLoop ⟨10⟩ =
          .ok candidate ∧
        ∃ accumulation, candidate.action = .accumulate accumulation ∧
          accumulation.target = .variable ⟨2⟩ ∧
          Pipeline.collectingLoop.referencesIn ⟨2⟩ candidate.source = .ok [] ∧
          Pipeline.collectingLoop.referencesIn ⟨2⟩ accumulation.value = .ok [] :=
    ⟨_, by cbv, _, by cbv, by cbv, by cbv, by cbv⟩
  obtain rfl := Except.ok.inj (hcandidate.symm.trans hcandidate')
  obtain rfl := LoopAction.accumulate.inj (haction.symm.trans haction')
  obtain ⟨hunseen, -, hdeclared⟩ := hobserves ⟨2⟩ htarget
  -- and it is the same application that has been computed
  obtain ⟨rfl, rfl⟩ := EStateM.Result.ok.inj (happly.symm.trans happly')
  obtain ⟨hchain, hcollected⟩ := hunseen hsource hvalue
  exact ⟨finding, outcome, next, collected, chain, hreported, happly, hcollects, hdeclared hfolded,
    hchain, hcollected⟩

/-- The statements `List ys = new ArrayList(); for (String x : xs) ys.add(ys.size());`, as a block.
-/
def selfReading : Tree where
  nodes := #[
    ⟨.expr (.create ⟨.simple "ArrayList", [], none⟩), some ⟨1⟩, Tree.placeOf 0⟩,
    ⟨.stmt (.declare ⟨2⟩ (some ⟨0⟩)), some ⟨9⟩, Tree.placeOf 1⟩,
    ⟨.expr (.name "xs" (some ⟨0⟩)), some ⟨8⟩, Tree.placeOf 2⟩,
    ⟨.expr (.name "ys" (some ⟨2⟩)), some ⟨6⟩, Tree.placeOf 3⟩,
    ⟨.expr (.name "ys" (some ⟨2⟩)), some ⟨5⟩, Tree.placeOf 4⟩,
    ⟨.expr (.call ⟨some ⟨4⟩, "size", [], some ⟨0⟩⟩), some ⟨6⟩, Tree.placeOf 5⟩,
    ⟨.expr (.call ⟨some ⟨3⟩, "add", [⟨5⟩], some ⟨1⟩⟩), some ⟨7⟩, Tree.placeOf 6⟩,
    ⟨.stmt (.expr ⟨6⟩), some ⟨8⟩, Tree.placeOf 7⟩,
    ⟨.stmt (.forEach ⟨⟨1⟩, some ⟨2⟩, some ⟨7⟩⟩), some ⟨9⟩, Tree.placeOf 8⟩,
    ⟨.stmt (.block [⟨1⟩, ⟨8⟩]), none, Tree.placeOf 9⟩]
  vars := #[⟨"xs", .simple "List", .parameter, false⟩,
    ⟨"x", .simple "String", .loopParameter, false⟩,
    ⟨"ys", .simple "List", .localVariable, false⟩]
  root := ⟨9⟩
  scope := .unknown
  revision := 0

/-- Where `ys.size()` and `ys.add(y)` are known and throw nothing. -/
def knowingSize : Inspector :=
  let size : Signature := ⟨"List", "size", [], 0, [], some (.simple "int"), false⟩
  let add : Signature := ⟨"List", "add", [.simple "Object"], 0, [], some (.simple "boolean"), false⟩
  ⟨⟨⟨.standard, #[size, add], []⟩, Options.standard.flow⟩, .standard⟩

/-- **A value that refers to the collection** does not keep the loop from being reported: it becomes
`List ys = xs.stream().map(x -> ys.size()).collect(Collectors.toList())`. -/
theorem selfReading_observed :
    selfReading.WellFormed ∧ selfReading.isAttached ⟨8⟩ = .ok true ∧
      ∃ finding outcome next collected chain, knowingSize.inspect selfReading ⟨8⟩ = .ok finding ∧
        finding.kind = .accumulation ∧ knowingSize.apply finding selfReading = .ok outcome next ∧
        Collects next outcome.replacement collected chain ∧ outcome.folded = true ∧
        next.kind? outcome.replacement = some (.stmt (.declare ⟨2⟩ (some collected))) ∧
        next.referencesIn ⟨2⟩ chain = .ok [⟨4⟩] := by
  refine ⟨.of_isInOrder (by decide), by cbv, _, _, _, ⟨15⟩, ⟨12⟩, by cbv, by cbv, by cbv,
    .declared (by cbv) (by cbv), by cbv, by cbv, by cbv⟩

end Inspector

end LoopToStream
