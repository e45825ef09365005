import LoopToStream.Proofs.Flow.Finality
import LoopToStream.Proofs.Flow.Exits
import LoopToStream.Proofs.Pipeline.Plan
import LoopToStream.Proofs.Tree.Mentions
import LoopToStream.Proofs.Tree.Printing

/-!
# Every loop gets an answer

Looking at a loop asks many questions about the tree around it. Each of them may be answered to the
disadvantage of the loop, and flow queries may be given up, but in a well-formed tree none of them
gets lost at a link or a variable that is not there. Then the loop is either a candidate or turned
down for a reason (`Candidate.of_answered`), and a report is made or not
(`Inspector.inspect_answered`).

One lemma for each question, in the order in which they are asked: the summary of the body, the
action, and the last check.
-/

namespace LoopToStream

open Attempt (Answered)

theorem Verdict.require_answered (verdict : Verdict) : verdict.require.Answered fun _ => True := by
  cases verdict <;> trivial

/-! ### The tree -/

namespace Tree

variable {tree : Tree} {id : NodeId} {v : VarId}

namespace WellFormed

variable (h : tree.WellFormed)
include h

/-- The way up ends with an answer. -/
theorem exists_climb {β : Type} {judge : NodeId → NodeId → Option β} (hid : id.index < tree.size) :
    ∃ answer, tree.climb judge id = .ok answer :=
  h.upward.parentsKnown.exists_climb hid judge

theorem exists_isAncestor {a : NodeId} (hid : id.index < tree.size) :
    ∃ answer, tree.isAncestor a id = .ok answer :=
  ⟨_, h.isAncestor_eq hid⟩

theorem exists_text (hid : tree.Attached id) : ∃ text, tree.text id = .ok text := by
  obtain ⟨text, hprints⟩ := exists_prints (h.grounded hid) h.vars_known
  exact ⟨text, hprints.text_eq⟩

/-- A variable that an expression refers to is known. -/
theorem var_known (hv : (tree.expr? id).bind Expr.var? = some v) : v.index < tree.vars.size := by
  obtain ⟨e, he, hvar⟩ := Option.bind_eq_some_iff.1 hv
  refine h.vars_known id _ (expr?_eq_some.1 he) v ?_
  cases e <;> simp_all [Expr.var?, Kind.vars, Expr.vars]

/-- A declaration of a variable is a node of the tree. -/
theorem exists_declarationOf? (v : VarId) :
    ∃ declaration, tree.declarationOf? v = .ok declaration ∧
      ∀ d ∈ declaration, d.index < tree.size := by
  refine ⟨_, h.declarationOf?_eq v, fun d hd => ?_⟩
  have hmem := List.mem_of_find?_eq_some hd
  exact h.lt_size (attached_root.reaches (mem_preorder_iff.1 hmem))

end WellFormed

end Tree

/-! ### Flow queries -/

namespace Tree.WellFormed

variable {tree : Tree} {body : NodeId} (flow : Flow) (h : tree.WellFormed)
    (hbody : tree.Attached body)
include h hbody

theorem exits_answered : (flow.exits tree body).Answered fun _ => True := by
  have hall := (h.descendantsWhere_eq (fun node => !tree.isClosure node) hbody).2
  refine Answered.mono (Flow.look_answered (P := fun _ => True) 0
    (fun n hn => h.lt_size (hall n hn)) fun n hn => ?_) fun _ _ => trivial
  obtain ⟨found, hfound⟩ := h.upward.parentsKnown.exists_exitAt (h.lt_size (hall n hn)) body
  exact ⟨found, hfound, by simp⟩

/-- The variables that are used are referred to. -/
theorem used_answered :
    (flow.used tree body).Answered fun used => ∀ v ∈ used, ∃ n, tree.Reaches body n ∧
      (tree.expr? n).bind Expr.var? = some v := by
  refine (Flow.look_answered (P := fun v => ∃ n, tree.Reaches body n ∧
      (tree.expr? n).bind Expr.var? = some v) 0
    (fun n hn => h.lt_size (hbody.reaches (Tree.mem_preorder_iff.1 hn)))
    fun n hn => ⟨_, rfl, fun v hv => ⟨n, Tree.mem_preorder_iff.1 hn, Option.mem_toList.1 hv⟩⟩).bind
      fun used hused => ?_
  rw [Answered.pure_iff]
  exact fun v hv => hused v ((Ascending.mem_ofList _).1 hv)

theorem written_answered : (flow.written tree body).Answered fun _ => True :=
  (h.writes_answered flow hbody).bind fun _ _ => trivial

end Tree.WellFormed

/-! ### The body -/

namespace BodySummary

variable {tree : Tree} {body : NodeId} (analyzer : Analyzer) (h : tree.WellFormed)
  (hbody : tree.Attached body)
include h

theorem capture_answered (body : NodeId) {v : VarId} (hv : v.index < tree.vars.size) :
    (capture analyzer tree body v).Answered fun captured =>
      ∀ c ∈ captured, c.1.index < tree.vars.size := by
  obtain ⟨declared, hdeclared⟩ : ∃ answer, isDeclaredIn tree body v = .ok answer := by
    obtain ⟨declaration, hdeclaration, hknown⟩ := h.exists_declarationOf? v
    rw [isDeclaredIn, hdeclaration, ok_bind]
    cases declaration with
    | none => exact ⟨_, rfl⟩
    | some declaration => exact h.exists_isAncestor (hknown declaration rfl)
  rw [capture, hdeclared, Attempt.liftM_ok, ok_bind]
  -- a variable that is declared in the body is not captured
  split
  · simp
  · refine (h.isEffectivelyFinal_answered analyzer.flow hv body).bind fun final _ => ?_
    rw [Answered.pure_iff]
    exact fun c hc => List.mem_singleton.1 hc ▸ hv

theorem exists_escaping {site : NodeId} (body : NodeId) (hsite : site.index < tree.size) :
    ∃ answer, escaping analyzer tree body site = .ok answer := by
  unfold escaping
  cases analyzer.symbols.resolve? tree site with
  | none => exact ⟨_, rfl⟩
  | some signature =>
    -- the climb from the call finds a parent at every step, so it ends
    have hcaught : ∀ name, ∃ answer, isCaughtWithin analyzer tree body name site = .ok answer := by
      intro name
      obtain ⟨answer, hanswer⟩ := h.exists_climb hsite
      exact ⟨_, by rw [isCaughtWithin, hanswer, ok_bind, pure_eq_ok]⟩
    -- an unchecked name is left out unasked; of the others it is asked where they are caught
    have hescapes : ∀ name ∈ signature.throws.map ClassType.name, ∃ b, (do
        if analyzer.symbols.hierarchy.isUnchecked name then return false
        else return !(← isCaughtWithin analyzer tree body name site) : Lookup Bool) = .ok b := by
      intro name _
      split
      · exact ⟨_, rfl⟩
      · obtain ⟨answer, hanswer⟩ := hcaught name
        exact ⟨_, by rw [hanswer, ok_bind, pure_eq_ok]⟩
    obtain ⟨p, hp⟩ := exists_test hescapes
    exact ⟨_, filterM_eq_ok hp⟩

include hbody

/-- The calls outside of function literals. -/
theorem callsIn_eq :
    callsIn tree body = .ok ((tree.preorderWhere (fun node => !tree.isClosure node) body).filter
      fun id => (tree.expr? id).any Expr.isCallLike) := by
  rw [callsIn, Tree.descendantsOutsideClosures, (h.descendantsWhere_eq _ hbody).1, ok_bind,
    pure_eq_ok]

theorem exists_callsIn :
    ∃ calls, callsIn tree body = .ok calls ∧ ∀ call ∈ calls, tree.Reaches body call ∧
      (tree.expr? call).any Expr.isCallLike := by
  refine ⟨_, callsIn_eq h hbody, fun call hcall => ?_⟩
  obtain ⟨hmem, hlike⟩ := List.mem_filter.1 hcall
  exact ⟨Tree.reaches_of_mem_preorderWhere hmem, hlike⟩

/-- **The summary of a body** is about variables and calls that are there. -/
theorem of_answered :
    (of analyzer tree body).Answered fun summary =>
      (∀ c ∈ summary.captured, c.1.index < tree.vars.size) ∧
        ∀ call ∈ summary.unresolved, tree.Reaches body call := by
  obtain ⟨calls, hcalls, hbelow⟩ := exists_callsIn h hbody
  refine (h.exits_answered analyzer.flow hbody).bind fun exits _ => ?_
  refine (h.used_answered analyzer.flow hbody).bind fun used hused => ?_
  refine (h.written_answered analyzer.flow hbody).bind fun written _ => ?_
  -- a variable that is used is one that some node mentions
  have hknown : ∀ v ∈ used, v.index < tree.vars.size := fun v hv => by
    obtain ⟨n, -, hn⟩ := hused v hv
    exact h.var_known hn
  refine (Answered.mapM fun v hv => capture_answered analyzer h body (hknown v hv)).bind
    fun captured hcaptured => ?_
  rw [hcalls, Attempt.liftM_ok, ok_bind]
  refine (Answered.mapM fun call hcall => Answered.lift (P := fun _ => True) ?_).bind
    fun checked _ => ?_
  · obtain ⟨names, hnames⟩ :=
      exists_escaping analyzer h body (h.lt_size (hbody.reaches (hbelow call hcall).1))
    exact ⟨names, hnames, trivial⟩
  · rw [Answered.pure_iff]
    refine ⟨fun c hc => ?_, fun call hcall => (hbelow call (List.mem_filter.1 hcall).1).1⟩
    obtain ⟨here, hhere, hc⟩ := List.mem_flatten.1 hc
    exact hcaptured here hhere c hc

omit hbody in
theorem exists_verdict {summary : BodySummary}
    (hcaptured : ∀ c ∈ summary.captured, c.1.index < tree.vars.size)
    (hunresolved : ∀ call ∈ summary.unresolved, tree.Attached call) :
    ∃ verdict, summary.verdict tree = .ok verdict := by
  unfold verdict
  split
  · exact ⟨_, rfl⟩
  · split
    · -- the variable in the reason is one of those captured, so its name is there
      next v final hfind =>
      have hv := hcaptured _ (List.mem_of_find?_eq_some hfind)
      rw [Tree.var_of_lt hv]
      exact ⟨_, rfl⟩
    · split
      · exact ⟨_, rfl⟩
      · -- the call in the reason hangs in the tree, so it can be printed
        next call rest hchecked hcalls =>
        obtain ⟨text, htext⟩ := h.exists_text (hunresolved call (by simp [hcalls]))
        rw [htext]
        exact ⟨_, rfl⟩
      · exact ⟨_, rfl⟩

end BodySummary

/-! ### The action -/

namespace Accumulation

variable {tree : Tree} (analyzer : Analyzer) (h : tree.WellFormed)
include h

theorem exists_declaredOutside (loop : Option NodeId) {v : VarId} (hv : v.index < tree.vars.size) :
    ∃ verdict, declaredOutside tree loop v = .ok verdict := by
  obtain ⟨declaration, hdeclaration, hknown⟩ := h.exists_declarationOf? v
  unfold declaredOutside
  rw [Tree.var_of_lt hv, ok_bind]
  cases tree.vars[v.index].kind with
  | parameter => exact ⟨_, rfl⟩
  | field isStatic => exact ⟨_, rfl⟩
  | localVariable | loopParameter | lambdaParameter | catchParameter =>
    -- only these kinds have a declaration that the tree is searched for
    dsimp only
    rw [hdeclaration, ok_bind]
    cases declaration with
    | none => exact ⟨_, rfl⟩
    | some declaration =>
      cases loop with
      | none => exact ⟨_, rfl⟩
      | some loop =>
        -- a declaration that is found hangs in the tree, so the way up from it ends
        obtain ⟨answer, hanswer⟩ := h.exists_isAncestor (a := loop) (hknown declaration rfl)
        dsimp only
        rw [hanswer, ok_bind]
        split <;> exact ⟨_, rfl⟩

/-- Whether an expression means the same object each time. By induction on the fields of fields
that are looked through. -/
theorem exists_staysSameWithin (loop : Option NodeId) (fuel : Nat) (id : NodeId) :
    ∃ verdict, staysSameWithin tree loop fuel id = .ok verdict := by
  induction fuel generalizing id with
  | zero => exact ⟨_, rfl⟩
  | succ fuel ih =>
    rw [staysSameWithin]
    split
    · exact ⟨_, rfl⟩
    · exact ⟨_, rfl⟩
    · exact ⟨_, rfl⟩
    · next v he => exact exists_declaredOutside h loop (h.var_known (by rw [he]; rfl))
    · -- a field stays the same if its owner does: one field less to look through
      next owner name v he =>
      obtain ⟨verdict, hverdict⟩ :=
        exists_declaredOutside h loop (h.var_known (v := v) (by rw [he]; rfl))
      rw [hverdict, ok_bind]
      cases verdict with
      | safe => exact ih owner
      | refused reason => exact ⟨_, rfl⟩
      | undecided reason => exact ⟨_, rfl⟩
    · exact ⟨_, rfl⟩
    · exact ⟨_, rfl⟩
    · exact ⟨_, rfl⟩

theorem exists_isObservedBy (target : Target) {condition : NodeId}
    (hcond : tree.Attached condition) :
    ∃ answer, target.isObservedBy tree condition = .ok answer := by
  match target with
  | .variable v =>
    -- a variable is observed where it is mentioned
    have hreferences := (h.grounded hcond).referencesIn_eq (v := v)
    exact ⟨_, by rw [Target.isObservedBy, hreferences, ok_bind, pure_eq_ok]⟩
  | .implicitReceiver =>
    -- the receiver is looked for below the condition, lambdas left out
    obtain ⟨heq, hall⟩ := h.descendantsWhere_eq (fun id => !Target.isLambda tree id) hcond
    -- only the parent of an occurrence is asked for, and what hangs in the tree has one
    obtain ⟨p, hp⟩ := exists_test (f := Target.readsReceiver tree)
      (l := tree.preorderWhere (fun id => !Target.isLambda tree id) condition) fun n hn => by
        unfold Target.readsReceiver
        split
        · exact ⟨_, rfl⟩
        · rw [Tree.parent_of_lt (h.lt_size (hall n hn)), ok_bind]
          split
          · split <;> exact ⟨_, rfl⟩
          · exact ⟨_, rfl⟩
        · exact ⟨_, rfl⟩
    dsimp only [Target.isObservedBy]
    rw [heq, ok_bind]
    exact ⟨_, anyM_eq_ok hp⟩

theorem targetOf_answered {action : NodeId} (haction : tree.Attached action)
    (receiver : Option NodeId) : (targetOf tree action receiver).Answered fun _ => True := by
  cases receiver with
  | none =>
    unfold targetOf
    dsimp only
    split <;> trivial
  | some q =>
    unfold targetOf
    dsimp only
    cases hvar : tree.variableAt? q with
    | none => trivial
    | some v =>
      -- the way up from the action finds the loop around it, if there is one
      obtain ⟨loop, hloop⟩ : ∃ loop, tree.enclosingForEach? action = .ok loop :=
        h.exists_climb (h.lt_size haction)
      obtain ⟨verdict, hverdict⟩ := exists_staysSameWithin h loop tree.pathBound q
      dsimp only
      rw [hloop, Attempt.liftM_ok, ok_bind, staysSame, hverdict, Attempt.liftM_ok, ok_bind]
      refine verdict.require_answered.bind fun _ _ => ?_
      rw [Tree.var_of_lt (h.var_known hvar), Attempt.liftM_ok, ok_bind]
      trivial

theorem checkValue_answered {value : NodeId} (hvalue : tree.Attached value) :
    (checkValue analyzer tree value).Answered fun _ => True := by
  unfold checkValue
  split
  · trivial
  · split
    · split
      · trivial
      · split <;> trivial
    · -- a call that is not known is told by its text
      obtain ⟨text, htext⟩ := h.exists_text hvalue
      rw [htext, Attempt.liftM_ok, ok_bind]
      trivial

/-- **Whether the action of a chain adds to a collection** is answered. -/
theorem of_answered {chain : GuardChain} (haction : tree.Attached chain.action)
    (hconds : ∀ cond ∈ chain.conditions, tree.Attached cond) :
    (of analyzer tree chain).Answered fun _ => True := by
  unfold of
  split
  · next id call value hadd =>
    obtain ⟨outer, houter, rfl, hcall, -, hargs⟩ := addCall?_eq_some hadd
    have hout : tree.Attached outer := haction.of_mem (by
      simp [Tree.parts_eq_children (Tree.stmt?_eq_some.1 houter), Kind.children, Stmt.children])
    have hid := hout.reaches (tree.reaches_skipParens _)
    have hvalue : tree.Attached value := hid.of_mem (by
      simp [Tree.parts_eq_children (Tree.call?_eq_some.1 hcall), Kind.children,
        Expr.children, hargs])
    split
    · split
      · trivial
      · refine (targetOf_answered h haction call.receiver).bind fun found _ => ?_
        obtain ⟨target, className⟩ := found
        dsimp only
        split
        · trivial
        · obtain ⟨p, hp⟩ := exists_test (l := chain.conditions) (f := target.isObservedBy tree)
            fun cond hcond => exists_isObservedBy h target (hconds cond hcond)
          rw [anyM_eq_ok hp, Attempt.liftM_ok, ok_bind]
          split
          · trivial
          · exact (checkValue_answered analyzer h hvalue).bind fun _ _ => trivial
    · obtain ⟨text, htext⟩ := h.exists_text hid
      rw [htext, Attempt.liftM_ok, ok_bind]
      trivial
  · trivial

end Accumulation

theorem LoopAction.exists_of {tree : Tree} (analyzer : Analyzer) (h : tree.WellFormed)
    {chain : GuardChain} (haction : tree.Attached chain.action)
    (hconds : ∀ cond ∈ chain.conditions, tree.Attached cond) :
    ∃ action, LoopAction.of analyzer tree chain = .ok action := by
  obtain ⟨answer, hanswer⟩ := (Accumulation.of_answered analyzer h haction hconds).exists_settle
  rw [LoopAction.of, hanswer, ok_bind]
  cases answer <;> exact ⟨_, rfl⟩

/-! ### The loop -/

namespace Candidate

variable {tree : Tree} {loop body : NodeId} (analyzer : Analyzer) (h : tree.WellFormed)
include h

theorem exists_isCollection (id : NodeId) :
    ∃ answer, analyzer.symbols.isCollection tree id = .ok answer := by
  obtain ⟨type, htype⟩ : ∃ type, analyzer.symbols.typeOf? tree id = .ok type := by
    unfold Symbols.typeOf?
    dsimp only
    split
    · next name v he =>
      rw [Tree.var_of_lt (h.var_known (v := v) (by rw [he]; rfl))]
      exact ⟨_, rfl⟩
    · next owner name v he =>
      rw [Tree.var_of_lt (h.var_known (v := v) (by rw [he]; rfl))]
      exact ⟨_, rfl⟩
    all_goals exact ⟨_, rfl⟩
  exact ⟨_, by rw [Symbols.isCollection, htype, ok_bind, pure_eq_ok]⟩

theorem partsOf_answered : (partsOf analyzer tree loop).Answered fun _ => True := by
  unfold partsOf
  split
  · split
    · next source body hsource hbody =>
      obtain ⟨answer, hanswer⟩ := exists_isCollection analyzer h source
      dsimp only
      rw [hanswer, Attempt.liftM_ok, ok_bind]
      split
      · trivial
      · split <;> trivial
    · dsimp only
      split <;> trivial
  · trivial

theorem checkBody_answered (hbody : tree.Attached body) :
    (checkBody analyzer tree body).Answered fun _ => True := by
  refine (BodySummary.of_answered analyzer h hbody).mapReason.bind fun summary hsummary => ?_
  obtain ⟨verdict, hverdict⟩ := BodySummary.exists_verdict h hsummary.1
    fun call hcall => hbody.reaches (hsummary.2 call hcall)
  rw [hverdict, Attempt.liftM_ok, ok_bind]
  exact verdict.require_answered

theorem exists_isTrivial {param : VarId} (hparam : param.index < tree.vars.size)
    (chain : GuardChain) (action : LoopAction) :
    ∃ answer, isTrivial analyzer tree param chain action = .ok answer := by
  unfold isTrivial
  split
  · exact ⟨_, rfl⟩
  · split
    · obtain ⟨answer, hanswer, -⟩ := Forwarding.exists_reduceAction? analyzer h hparam chain.action
      rw [hanswer, ok_bind]
      exact ⟨_, rfl⟩
    · exact ⟨_, rfl⟩

/-- **Every loop is a candidate or turned down** for a reason. -/
theorem of_answered (hloop : tree.Attached loop) :
    (of analyzer tree loop).Answered fun _ => True := by
  refine (partsOf_answered analyzer h).eq_ok.bind fun found hparts => ?_
  obtain ⟨param, source, body⟩ := found
  have hkind := Tree.forEach?_eq_some.1 (partsOf_eq_ok hparts)
  have hbody : tree.Attached body := hloop.of_mem (by
    simp [Tree.parts_eq_children hkind, Kind.children, Stmt.children])
  have hparam : param.index < tree.vars.size :=
    h.vars_known loop _ hkind _ (by simp [Kind.vars, Stmt.vars])
  refine (checkBody_answered analyzer h hbody).bind fun _ _ => ?_
  -- the action and the conditions hang in the body
  have hguarded := (h.grounded hbody).guarded_of
  obtain ⟨action, haction⟩ := LoopAction.exists_of analyzer h
    (hbody.reaches hguarded.reaches_action)
    fun cond hcond => hbody.reaches (hguarded.reaches_condition hcond).reaches
  obtain ⟨trivialBody, htrivial⟩ :=
    exists_isTrivial analyzer h hparam (GuardChain.of tree body) action
  dsimp only
  rw [haction, Attempt.liftM_ok, ok_bind, htrivial, Attempt.liftM_ok, ok_bind]
  split <;> trivial

end Candidate

/-- **A report on a loop is made or not**, and nothing else happens. -/
theorem Inspector.inspect_answered {tree : Tree} {loop : NodeId} (inspector : Inspector)
    (h : tree.WellFormed) (hloop : tree.Attached loop) :
    (inspector.inspect tree loop).Answered fun _ => True := by
  refine (Candidate.of_answered inspector.analyzer h hloop).eq_ok.bind fun candidate hcandidate =>
    ?_
  have hsource := (Candidate.found_of_eq_ok hcandidate).source_attached hloop
  obtain ⟨place, hplace⟩ := Tree.exists_span (h.lt_size hsource)
  rw [Finding.of, hplace, ok_bind]
  trivial

end LoopToStream
