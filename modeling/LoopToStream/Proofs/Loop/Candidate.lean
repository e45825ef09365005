import LoopToStream.Inspection.Run
import LoopToStream.Proofs.Tree.Questions

/-!
# What a loop that is reported has

A finding is only made for a loop that has passed every check. The structures here say what
that leaves behind: `Candidate.Found` for the parts of the loop, its guards and its action, and
`Accumulation.Found` for an action that adds to a collection. The findings themselves are read
back by `Inspector.inspect_eq_ok`.
-/

namespace LoopToStream

variable {analyzer : Analyzer} {tree : Tree} {loop : NodeId}

/-! ### Verdicts -/

theorem Verdict.require_eq_ok {verdict : Verdict} {u : Unit} :
    verdict.require = .ok u ↔ verdict = .safe := by
  cases verdict <;> simp [require, pass?]

namespace BodySummary

variable {summary : BodySummary}

/-- **What a summary is made of**: each of its parts is the answer to a question of its own. -/
theorem of_eq_ok {body : NodeId} (h : of analyzer tree body = .ok summary) :
    analyzer.flow.exits tree body = .ok summary.exits ∧
      analyzer.flow.used tree body = .ok summary.read ∧
      ∃ captured, summary.read.mapM (capture analyzer tree body) = .ok captured ∧
        summary.captured = captured.flatten := by
  -- the questions in the order in which they are asked; two of the answers are of no use here
  obtain ⟨exits, hexits, h⟩ := bind_eq_ok.1 h
  obtain ⟨read, hread, h⟩ := bind_eq_ok.1 h
  obtain ⟨written, -, h⟩ := bind_eq_ok.1 h
  obtain ⟨captured, hcaptured, h⟩ := bind_eq_ok.1 h
  obtain ⟨calls, -, h⟩ := bind_eq_ok.1 h
  obtain ⟨checked, -, h⟩ := bind_eq_ok.1 h
  cases h
  exact ⟨hexits, hread, captured, hcaptured, rfl⟩

/-- The exceptions and the unknown calls of a summary are those of the calls in the body. -/
theorem calls_of_eq_ok {body : NodeId} (h : of analyzer tree body = .ok summary) :
    ∃ calls checked, callsIn tree body = .ok calls ∧
      calls.mapM (escaping analyzer tree body) = .ok checked ∧
      summary.checked = Ascending.ofList nameBefore checked.flatten ∧
      summary.unresolved = calls.filter fun id => (analyzer.symbols.resolve? tree id).isNone := by
  obtain ⟨exits, -, h⟩ := bind_eq_ok.1 h
  obtain ⟨read, -, h⟩ := bind_eq_ok.1 h
  obtain ⟨written, -, h⟩ := bind_eq_ok.1 h
  obtain ⟨captured, -, h⟩ := bind_eq_ok.1 h
  obtain ⟨calls, hcalls, h⟩ := bind_eq_ok.1 h
  obtain ⟨checked, hchecked, h⟩ := bind_eq_ok.1 h
  cases h
  exact ⟨calls, checked, Attempt.liftM_eq_ok.1 hcalls, Attempt.mapM_liftM_eq_ok.1 hchecked,
    rfl, rfl⟩

/-- A summary is only passed if nothing leaves the body. -/
theorem exits_of_safe (h : summary.verdict tree = .ok .safe) : summary.exits = [] := by
  unfold verdict at h
  cases hexits : summary.exits with
  | nil => rfl
  | cons exit rest => simp [hexits] at h

/-- A summary is only passed if all that the body captures keeps its value. -/
theorem captured_of_safe (h : summary.verdict tree = .ok .safe) :
    ∀ captured ∈ summary.captured, captured.2 = true := by
  intro captured hmem
  cases hfind : summary.captured.find? fun capture => !capture.2 with
  | none => simpa using List.find?_eq_none.1 hfind captured hmem
  | some found =>
    simp only [verdict, exits_of_safe h, hfind] at h
    obtain ⟨declared, -, h⟩ := bind_eq_ok.1 h
    cases h

end BodySummary

/-! ### Candidates -/

namespace Candidate

/-- What the checks have found out about a loop. -/
structure Found (analyzer : Analyzer) (tree : Tree) (loop : NodeId) (candidate : Candidate) :
    Prop where
  loop_eq : candidate.loop = loop
  forEach : tree.forEach? loop =
    some ⟨candidate.param, some candidate.source, some candidate.body⟩
  body_checked : checkBody analyzer tree candidate.body = .ok ()
  chain_eq : candidate.chain = GuardChain.of tree candidate.body
  action_eq : LoopAction.of analyzer tree candidate.chain = .ok candidate.action

theorem partsOf_eq_ok {param : VarId} {source body : NodeId}
    (h : partsOf analyzer tree loop = .ok (param, source, body)) :
    tree.forEach? loop = some ⟨param, some source, some body⟩ := by
  unfold partsOf at h
  cases hloop : tree.forEach? loop with
  | none => simp [hloop] at h
  | some found =>
    obtain ⟨v, iterated, inner⟩ := found
    simp only [hloop] at h
    split at h
    · simp at h
    · split at h
      · -- both parts are there: what is left is the check that the source is a collection
        next hsource hbody =>
        obtain ⟨collection, -, h⟩ := bind_eq_ok.1 h
        cases collection with
        | true =>
          simp only [if_true, pure_eq_ok, Except.ok.injEq, Prod.mk.injEq] at h
          obtain ⟨rfl, rfl, rfl⟩ := h
          simp_all
        | false => simp at h
      · simp at h

/-- **A candidate has passed every check.** -/
theorem found_of_eq_ok {candidate : Candidate} (h : of analyzer tree loop = .ok candidate) :
    Found analyzer tree loop candidate := by
  obtain ⟨⟨param, source, body⟩, hparts, h⟩ := bind_eq_ok.1 h
  obtain ⟨⟨⟩, hbody, h⟩ := bind_eq_ok.1 h
  obtain ⟨action, haction, h⟩ := bind_eq_ok.1 h
  obtain ⟨trivial, -, h⟩ := bind_eq_ok.1 h
  cases trivial with
  | true => simp at h
  | false =>
    cases h
    exact ⟨rfl, partsOf_eq_ok hparts, hbody, rfl, Attempt.liftM_eq_ok.1 haction⟩

/-- A body that is let through has been passed by its summary. -/
theorem checkBody_eq_ok {body : NodeId} (h : checkBody analyzer tree body = .ok ()) :
    ∃ summary, BodySummary.of analyzer tree body = .ok summary ∧
      summary.verdict tree = .ok .safe := by
  obtain ⟨summary, hsummary, h⟩ := bind_eq_ok.1 h
  obtain ⟨verdict, hverdict, hsafe⟩ := bind_eq_ok.1 h
  obtain rfl := Verdict.require_eq_ok.1 hsafe
  exact ⟨summary, Attempt.mapReason_eq_ok.1 hsummary, Attempt.liftM_eq_ok.1 hverdict⟩

/-- The flow query for the exits of the body has found none. -/
theorem Found.exits_eq {candidate : Candidate} (h : Found analyzer tree loop candidate) :
    analyzer.flow.exits tree candidate.body = .ok [] := by
  obtain ⟨summary, hsummary, hsafe⟩ := checkBody_eq_ok h.body_checked
  rw [(BodySummary.of_eq_ok hsummary).1, BodySummary.exits_of_safe hsafe]

end Candidate

/-! ### Accumulations -/

namespace Accumulation

/-- What has been found out about an action that adds to a collection. -/
structure Found (tree : Tree) (action : NodeId) (accumulation : Accumulation) : Prop where
  /-- The action is the call, perhaps in parentheses. -/
  statement : ∃ value, tree.stmt? action = some (.expr value) ∧
    accumulation.call = tree.skipParens value
  call : ∃ target, tree.call? accumulation.call =
    some ⟨accumulation.qualifier, "add", [accumulation.value], target⟩
  /-- What the call is made on means the same object each time that the loop around it goes round.
  -/
  receiver : ∀ q, accumulation.qualifier = some q →
    ∃ enclosing, tree.enclosingForEach? action = .ok enclosing ∧
      staysSame tree enclosing q = .ok .safe
  /-- A variable that is added to is what the call is made on. -/
  target : ∀ var, accumulation.target = .variable var →
    ∃ q, accumulation.qualifier = some q ∧ tree.variableAt? q = some var

theorem addCall?_eq_some {action id value : NodeId} {call : Call NodeId}
    (h : addCall? tree action = some (id, call, value)) :
    ∃ outer, tree.stmt? action = some (.expr outer) ∧ id = tree.skipParens outer ∧
      tree.call? id = some call ∧ call.method = "add" ∧ call.args = [value] := by
  unfold addCall? at h
  -- a call with a receiver or without, of one argument and named `add`
  split at h
  · next outer houter =>
    dsimp only at h
    split at h
    · next receiver arg target hcall =>
      cases h
      exact ⟨outer, houter, rfl, hcall, rfl, rfl⟩
    · simp at h
  · simp at h

/-- The implicit receiver is there in an instance member of a class. -/
theorem targetOf_none_eq_ok {action : NodeId} {target : Target} {className : String}
    (h : targetOf tree action none = .ok (target, className)) :
    target = .implicitReceiver ∧ tree.scope.isStatic = false ∧
      tree.scope.enclosingClass = some className := by
  simp only [targetOf] at h
  split at h
  · next hstatic hclass =>
    cases h
    exact ⟨rfl, hstatic, hclass⟩
  · simp at h

theorem targetOf_some_eq_ok {action q : NodeId} {target : Target} {className : String}
    (h : targetOf tree action (some q) = .ok (target, className)) :
    (∃ enclosing, tree.enclosingForEach? action = .ok enclosing ∧
        staysSame tree enclosing q = .ok .safe) ∧
      ∃ var declared, target = .variable var ∧ tree.variableAt? q = some var ∧
        tree.var var = .ok declared ∧ declared.type.name = className := by
  simp only [targetOf] at h
  -- a qualifier that is no variable is turned down
  cases hvar : tree.variableAt? q with
  | none => simp [hvar] at h
  | some var =>
    simp only [hvar] at h
    obtain ⟨enclosing, henclosing, h⟩ := bind_eq_ok.1 h
    obtain ⟨verdict, hverdict, h⟩ := bind_eq_ok.1 h
    obtain ⟨⟨⟩, hsafe, hrest⟩ := bind_eq_ok.1 h
    obtain ⟨declared, hdeclared, hrest⟩ := bind_eq_ok.1 hrest
    obtain ⟨rfl, hclass⟩ := Prod.mk.inj (Except.ok.inj hrest)
    obtain rfl := Verdict.require_eq_ok.1 hsafe
    exact ⟨⟨enclosing, Attempt.liftM_eq_ok.1 henclosing, Attempt.liftM_eq_ok.1 hverdict⟩, var,
      declared, rfl, rfl, Attempt.liftM_eq_ok.1 hdeclared, hclass⟩

/-- **The checks on an accumulation** have found the call and the collection, which is one, and no
guard that may notice what has been added. -/
theorem of_eq_ok {chain : GuardChain} {accumulation : Accumulation}
    (h : of analyzer tree chain = .ok accumulation) :
    ∃ call className,
      addCall? tree chain.action = some (accumulation.call, call, accumulation.value) ∧
      call.receiver = accumulation.qualifier ∧
      targetOf tree chain.action accumulation.qualifier = .ok (accumulation.target, className) ∧
      analyzer.symbols.hierarchy.isSubtype className "Collection" = true ∧
      (chain.conditions.anyM (accumulation.target.isObservedBy tree) : Lookup Bool) =
        .ok false := by
  unfold of at h
  -- the checks in their order: each that fails ends with a reason and not with an accumulation
  cases hadd : addCall? tree chain.action with
  | none => simp [hadd] at h
  | some parts =>
    obtain ⟨id, call, value⟩ := parts
    simp only [hadd] at h
    cases hsignature : analyzer.symbols.resolve? tree id with
    | none =>
      simp only [hsignature] at h
      obtain ⟨text, -, h⟩ := bind_eq_ok.1 h
      simp at h
    | some signature =>
      simp only [hsignature] at h
      split at h
      · simp at h
      · obtain ⟨⟨target, className⟩, htarget, h⟩ := bind_eq_ok.1 h
        split at h
        · simp at h
        · next hcollection =>
          obtain ⟨hazard, hhazard, h⟩ := bind_eq_ok.1 h
          split at h
          · simp at h
          · next hno =>
            obtain ⟨⟨⟩, -, h⟩ := bind_eq_ok.1 h
            cases h
            obtain rfl : hazard = false := by simpa using hno
            exact ⟨call, className, rfl, rfl, htarget, by simpa using hcollection,
              Attempt.liftM_eq_ok.1 hhazard⟩

theorem found_of_eq_ok {chain : GuardChain} {accumulation : Accumulation}
    (h : of analyzer tree chain = .ok accumulation) : Found tree chain.action accumulation := by
  obtain ⟨call, className, hadd, hreceiver, htarget, -, -⟩ := of_eq_ok h
  obtain ⟨outer, houter, hid, hcall, hmethod, hargs⟩ := addCall?_eq_some hadd
  obtain ⟨receiver, method, args, resolved⟩ := call
  subst hmethod hargs hreceiver
  refine ⟨⟨outer, houter, hid⟩, ⟨resolved, hcall⟩, fun q hq => ?_, fun var hvar => ?_⟩
  · rw [hq] at htarget
    exact (targetOf_some_eq_ok htarget).1
  · cases hq : accumulation.qualifier with
    | none =>
      rw [hq] at htarget
      simp [(targetOf_none_eq_ok htarget).1] at hvar
    | some q =>
      rw [hq] at htarget
      obtain ⟨v, declared, hv, hq, -⟩ := (targetOf_some_eq_ok htarget).2
      obtain rfl : v = var := by simpa [hv] using hvar
      exact ⟨q, rfl, hq⟩

/-- **No guard mentions the variable that is added to.** -/
theorem referencesIn_eq_nil_of_eq_ok {chain : GuardChain} {accumulation : Accumulation} {v : VarId}
    (h : of analyzer tree chain = .ok accumulation) (htarget : accumulation.target = .variable v) :
    ∀ cond ∈ chain.conditions, tree.referencesIn v cond = .ok [] := by
  obtain ⟨-, -, -, -, -, -, hguards⟩ := of_eq_ok h
  intro cond hcond
  have hno := anyM_eq_false hguards cond hcond
  rw [htarget] at hno
  obtain ⟨references, hreferences, hnone⟩ := bind_eq_ok.1 hno
  rw [hreferences]
  simpa using hnone

/-! ### Collections that stay the same -/

/-- **An expression that means the same object each time** that a loop goes round: what the check of
it comes to, without a bound on the fields that are looked through. -/
inductive Steady (tree : Tree) (enclosing : Option NodeId) : NodeId → Prop where
  | thisRef {id : NodeId} (here : tree.kind? id = some (.expr .thisRef)) : Steady tree enclosing id
  | superRef {id : NodeId} (here : tree.kind? id = some (.expr .superRef)) :
      Steady tree enclosing id
  | typeName {id : NodeId} {type : ClassType}
      (here : tree.kind? id = some (.expr (.typeName type))) :
      Steady tree enclosing id
  | name {id : NodeId} {n : String} {v : VarId}
      (here : tree.kind? id = some (.expr (.name n (some v))))
      (outside : declaredOutside tree enclosing v = .ok .safe) : Steady tree enclosing id
  | field {id owner : NodeId} {n : String} {v : VarId}
      (here : tree.kind? id = some (.expr (.field owner n (some v))))
      (outside : declaredOutside tree enclosing v = .ok .safe)
      (below : Steady tree enclosing owner) :
      Steady tree enclosing id
  | paren {id inner : NodeId} (here : tree.kind? id = some (.expr (.paren inner)))
      (below : Steady tree enclosing inner) : Steady tree enclosing id

/-- What has passed the check is steady. By induction on the fields of fields that are looked
through, and at each of them on the parentheses. -/
theorem steady_of_staysSameWithin {enclosing : Option NodeId} {fuel : Nat} {id : NodeId}
    (hg : tree.Grounded id) (h : staysSameWithin tree enclosing fuel id = .ok .safe) :
    Steady tree enclosing id := by
  induction fuel generalizing id with
  | zero => simp [staysSameWithin] at h
  | succ fuel ih =>
    -- parentheses are skipped by the check and by the meaning alike
    refine hg.of_skipParens (fun _ _ => .paren) ?_
    rw [staysSameWithin] at h
    cases hexpr : tree.expr? (tree.skipParens id) with
    | none => simp [hexpr] at h
    | some e =>
      have here := Tree.expr?_eq_some.1 hexpr
      rw [hexpr] at h
      cases e with
      | thisRef => exact .thisRef here
      | superRef => exact .superRef here
      | typeName type => exact .typeName here
      | name n v =>
        cases v with
        | none => simp at h
        | some v => exact .name here h
      | field owner n v =>
        cases v with
        | none => simp at h
        | some v =>
          obtain ⟨verdict, hverdict, h⟩ := bind_eq_ok.1 h
          cases verdict with
          | safe =>
            -- the owner is a part of the field, so the induction applies to it
            have hgowner := (hg.of_reaches (tree.reaches_skipParens _)).of_mem_parts (c := owner)
              (by simp [Tree.parts_eq_children here, Kind.children, Expr.children])
            exact .field here hverdict (ih hgowner h)
          | refused reason => simp at h
          | undecided reason => simp at h
      | _ => simp at h

/-- It has no landmarks in it. -/
theorem Steady.unmarked {enclosing : Option NodeId} {id : NodeId} (h : Steady tree enclosing id) :
    tree.Unmarked id := by
  induction h with
  | thisRef here => exact .expr here rfl (by simp [Expr.children])
  | superRef here => exact .expr here rfl (by simp [Expr.children])
  | typeName here => exact .expr here rfl (by simp [Expr.children])
  | name here _ => exact .expr here rfl (by simp [Expr.children])
  | field here _ _ ih => exact .expr here rfl (by simpa [Expr.children] using ih)
  | paren here _ ih => exact .expr here rfl (by simpa [Expr.children] using ih)

/-- It is nothing looser than a field. -/
theorem Steady.exists_precedence {enclosing : Option NodeId} {id : NodeId}
    (h : Steady tree enclosing id) : ∃ e, tree.kind? id = some (.expr e) ∧ e.precedence = 15 := by
  cases h <;> exact ⟨_, by assumption, rfl⟩

/-- **What is added to is steady**, as far as the loop around the action is concerned. -/
theorem Found.steady {action q : NodeId} {accumulation : Accumulation}
    (h : Found tree action accumulation) (hq : accumulation.qualifier = some q)
    (hg : tree.Grounded q) :
    ∃ enclosing, tree.enclosingForEach? action = .ok enclosing ∧ Steady tree enclosing q := by
  obtain ⟨enclosing, henclosing, hsame⟩ := h.receiver q hq
  exact ⟨enclosing, henclosing, steady_of_staysSameWithin hg hsame⟩

/-- The call that adds is in the action, and what it is made on and the value are its parts. -/
theorem Found.parts_call {action : NodeId} {accumulation : Accumulation}
    (h : Found tree action accumulation) :
    tree.parts accumulation.call = accumulation.qualifier.toList ++ [accumulation.value] := by
  obtain ⟨resolved, hcall⟩ := h.call
  rw [Tree.parts_eq_children (Tree.call?_eq_some.1 hcall)]
  rfl

theorem Found.reaches_call {action : NodeId} {accumulation : Accumulation}
    (h : Found tree action accumulation) :
    tree.Reaches action accumulation.call := by
  obtain ⟨outer, houter, hcall⟩ := h.statement
  have hmem : outer ∈ tree.parts action := by
    simp [Tree.parts_eq_children (Tree.stmt?_eq_some.1 houter), Kind.children, Stmt.children]
  rw [hcall]
  exact (tree.reaches_skipParens _).head hmem

/-- **What is added to has no landmarks in it.** -/
theorem Found.unmarked {action q : NodeId} {accumulation : Accumulation}
    (h : Found tree action accumulation) (hq : accumulation.qualifier = some q)
    (hg : tree.Grounded q) : tree.Unmarked q := by
  obtain ⟨enclosing, -, hsteady⟩ := h.steady hq hg
  exact hsteady.unmarked

theorem Found.precedence_eq {action q : NodeId} {accumulation : Accumulation}
    (h : Found tree action accumulation) (hq : accumulation.qualifier = some q)
    (hg : tree.Grounded q) : ∃ e, tree.kind? q = some (.expr e) ∧ e.precedence = 15 := by
  obtain ⟨enclosing, -, hsteady⟩ := h.steady hq hg
  exact hsteady.exists_precedence

end Accumulation

/-- An action that adds to a collection has passed the checks on an accumulation. -/
theorem LoopAction.accumulation_of_eq_ok {chain : GuardChain} {accumulation : Accumulation}
    (h : LoopAction.of analyzer tree chain = .ok (.accumulate accumulation)) :
    Accumulation.of analyzer tree chain = .ok accumulation := by
  obtain ⟨answer, hanswer, h⟩ := bind_eq_ok.1 h
  cases answer with
  | ok found =>
    cases h
    exact Attempt.settle_eq_ok.1 hanswer
  | error reason => cases h

theorem LoopAction.found_of_eq_ok {chain : GuardChain} {accumulation : Accumulation}
    (h : LoopAction.of analyzer tree chain = .ok (.accumulate accumulation)) :
    Accumulation.Found tree chain.action accumulation :=
  Accumulation.found_of_eq_ok (accumulation_of_eq_ok h)

/-- No guard mentions the variable that an action adds to. -/
theorem LoopAction.referencesIn_eq_nil {chain : GuardChain} {accumulation : Accumulation}
    {v : VarId} (h : LoopAction.of analyzer tree chain = .ok (.accumulate accumulation))
    (htarget : accumulation.target = .variable v) :
    ∀ cond ∈ chain.conditions, tree.referencesIn v cond = .ok [] :=
  Accumulation.referencesIn_eq_nil_of_eq_ok (accumulation_of_eq_ok h) htarget

/-- Any other action is the statement that the guards leave. -/
theorem LoopAction.perform_eq {chain : GuardChain} {stmt : NodeId}
    (h : LoopAction.of analyzer tree chain = .ok (.perform stmt)) : stmt = chain.action := by
  obtain ⟨answer, -, h⟩ := bind_eq_ok.1 h
  cases answer with
  | ok found => cases h
  | error reason =>
    cases h
    rfl

/-! ### Findings -/

namespace Inspector

/-- Loops looked at with the usual classes, the usual options and no bounds. -/
def standard : Inspector := ⟨⟨.ofHierarchy .standard, Options.standard.flow⟩, .standard⟩

variable {inspector : Inspector} {finding : Finding}

/-- **A finding is about a candidate.** -/
theorem inspect_eq_ok (h : inspector.inspect tree loop = .ok finding) :
    ∃ candidate, inspector.candidate tree loop = .ok candidate ∧
      Candidate.Found inspector.analyzer tree loop candidate ∧ finding.kind = candidate.kind ∧
      finding.loop = loop ∧ finding.revision = tree.revision := by
  obtain ⟨candidate, hcandidate, h⟩ := bind_eq_ok.1 h
  obtain ⟨span, -, h⟩ := bind_eq_ok.1 (Attempt.liftM_eq_ok.1 h)
  cases h
  exact ⟨candidate, hcandidate, Candidate.found_of_eq_ok hcandidate, rfl, rfl, rfl⟩

/-- A plan is made for the candidate that the loop of a finding is, if the finding still holds. -/
theorem planFor_eq_ok {plan : Pipeline} (h : inspector.planFor tree finding = .ok plan) :
    ∃ candidate, inspector.candidate tree finding.loop = .ok candidate ∧
      candidate.kind = finding.kind ∧
      Pipeline.of inspector.analyzer inspector.options tree candidate = .ok plan := by
  unfold planFor at h
  -- the plan is refused at once if the tree has been changed since, or the loop is of another sort
  by_cases hrevision : finding.revision = tree.revision
  · simp only [hrevision, ne_eq, not_true, if_false] at h
    obtain ⟨candidate, hcandidate, h⟩ := bind_eq_ok.1 h
    refine ⟨candidate, Attempt.mapReason_eq_ok.1 hcandidate, ?_⟩
    by_cases hkind : candidate.kind = finding.kind
    · exact ⟨hkind, by simpa [hkind] using h⟩
    · simp [hkind] at h
  · simp [hrevision] at h

/-- Looking at the same tree again, the plan is made for the candidate that was reported. -/
theorem planFor_eq {candidate : Candidate}
    (hcandidate : inspector.candidate tree loop = .ok candidate)
    (hkind : finding.kind = candidate.kind) (hloop : finding.loop = loop)
    (hrevision : finding.revision = tree.revision) :
    inspector.planFor tree finding =
      Pipeline.of inspector.analyzer inspector.options tree candidate := by
  simp [planFor, hcandidate, hkind, hloop, hrevision]

end Inspector

end LoopToStream
