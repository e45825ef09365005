import LoopToStream.Proofs.Flow.Captures
import LoopToStream.Proofs.Pipeline.Around

/-!
# Looking at a loop within bounds

Flow queries are made in two places when a loop is looked at. The summary of the body needs their
answers, and a query that is given up turns the loop down (`Candidate.checkBody_sameUnless`). The
last check asks once more, about the receiver of a call that could be a method reference, and there
giving up counts as a no: a body that is as simple as can be would then no longer be turned down for
that.

It does not come to that. The receiver is mentioned in the body, and around a bare call there are
only comments, which declare nothing (`Tree.Guarded.reaches_cases`), so that the summary has asked
about the same variable before, with success (`Candidate.isTrivial_eq_of_checked`). Bounds can
therefore keep a report from being made, and can do nothing else to it
(`Inspector.inspect_within_bounds`).
-/

namespace LoopToStream

open Attempt (SameUnless)

variable {symbols : Symbols} {flow wider : Flow} {tree : Tree}
    {loop body action value receiver : NodeId}
  {param var : VarId}

/-! ### The summary of the body -/

section Body

variable (h : flow.Narrower wider)
include h

theorem BodySummary.capture_sameUnless (v : VarId) :
    (capture ⟨symbols, flow⟩ tree body v).SameUnless .timeout
      (capture ⟨symbols, wider⟩ tree body v) := by
  refine (SameUnless.refl _).bind fun declared _ => ?_
  split
  · rfl
  · exact h.isEffectivelyFinal.bind fun final _ => .refl _

/-- Each of the queries may be given up. The calls and their exceptions are found without any. -/
theorem BodySummary.of_sameUnless :
    (of ⟨symbols, flow⟩ tree body).SameUnless .timeout (of ⟨symbols, wider⟩ tree body) :=
  h.exits.bind fun _ _ => h.used.bind fun _ _ => h.written.bind fun _ _ =>
    (SameUnless.mapM (capture_sameUnless h)).bind fun _ _ => .refl _

theorem Candidate.checkBody_sameUnless :
    (checkBody ⟨symbols, flow⟩ tree body).SameUnless .analysisTimeout
      (checkBody ⟨symbols, wider⟩ tree body) :=
  (BodySummary.of_sameUnless h).mapReason.bind fun _ _ => .refl _

end Body

/-- Once canceled, nothing is found out about a body. -/
theorem Candidate.checkBody_of_canceled {analyzer : Analyzer} (h : analyzer.flow.canceled = true) :
    checkBody analyzer tree body = refuse .analysisCanceled := by
  rw [checkBody, BodySummary.of, Flow.exits_of_canceled h]
  rfl

/-! ### The last check -/

/-- Where no guard has been taken off, no condition has been. -/
theorem GuardChain.conditions_of_isBare (h : (of tree body).isBare = true) :
    (of tree body).conditions = [] := by
  rw [of, Tree.pathBound, within] at h ⊢
  split at h
  · simp [isBare, guarded] at h
  · rfl

namespace Tree

/-- **Around a bare action** there are blocks and comments, and nothing else. By induction on what
is taken off. -/
theorem Guarded.reaches_cases {id n : NodeId} (h : tree.Guarded id [] action)
    (hwf : tree.WellFormed) (hid : tree.Attached id) (hn : tree.Reaches id n) :
    tree.Reaches action n ∨ (∃ stmts, tree.kind? n = some (.stmt (.block stmts))) ∨
      ∃ text, tree.kind? n = some (.comment text) := by
  generalize hconds : ([] : List NodeId) = conds at h
  induction h with
  | @wrapped id inner conds action only below ih =>
    obtain ⟨stmts, hkind, -⟩ := onlyStatement?_eq_some only
    rcases reaches_iff.1 hn with rfl | ⟨c, hc, hcn⟩
    · exact .inr (.inl ⟨stmts, hkind⟩)
    · by_cases hinner : c = inner
      · exact ih (hid.of_mem (mem_parts_of_onlyStatement? only)) (hinner ▸ hcn) hconds
      · -- what is beside the single statement of a block is a comment, and leads nowhere
        obtain ⟨text, htext⟩ := comment_of_onlyStatement? hwf hid only hc hinner
        rcases reaches_iff.1 hcn with rfl | ⟨d, hd, -⟩
        · exact .inr (.inr ⟨text, htext⟩)
        · simp [parts_eq_children htext, Kind.children] at hd
  | guard guard below ih => cases hconds
  | bare => exact .inl hn

/-- Code without landmarks declares nothing. -/
theorem Unmarked.not_declares {id n : NodeId} (h : tree.Unmarked id) (hn : tree.Reaches id n) :
    (tree.kind? n).any (declares var) = false := by
  rw [any_declares_eq, h n hn]
  rfl

/-- A body that does nothing but compute a value without landmarks declares nothing. -/
theorem Guarded.not_declares {id n : NodeId} (h : tree.Guarded id [] action) (hwf : tree.WellFormed)
    (hid : tree.Attached id) (haction : tree.kind? action = some (.stmt (.expr value)))
    (hvalue : tree.Unmarked value) (hn : tree.Reaches id n) :
    (tree.kind? n).any (declares var) = false := by
  rcases h.reaches_cases hwf hid hn with hbelow | ⟨stmts, hblock⟩ | ⟨text, hcomment⟩
  · rcases reaches_iff.1 hbelow with rfl | ⟨c, hc, hcn⟩
    · rw [haction]
      rfl
    · -- the action has the value as its one part
      obtain rfl : c = value := by
        simpa [parts_eq_children haction, Kind.children, Stmt.children] using hc
      exact hvalue.not_declares hcn
  · rw [hblock]
    rfl
  · rw [hcomment]
    rfl

end Tree

namespace Forwarding

variable {id : NodeId} {isStatic : Bool}

theorem boundQualifier?_congr
    (hsame : ∀ var, (tree.expr? receiver).bind Expr.var? = some var →
      Bound tree receiver (.expr receiver) →
      keepsValue ⟨symbols, flow⟩ tree param receiver var =
        keepsValue ⟨symbols, wider⟩ tree param receiver var) :
    boundQualifier? ⟨symbols, flow⟩ tree param isStatic receiver =
      boundQualifier? ⟨symbols, wider⟩ tree param isStatic receiver := by
  unfold boundQualifier?
  cases hreceiver : tree.expr? receiver with
  | none => rfl
  | some e =>
    have hkind := Tree.expr?_eq_some.1 hreceiver
    rw [hreceiver] at hsame
    cases e with
    -- only for a name, and for a field of `this`, is it asked whether the value stays the same
    | name n v =>
      cases v with
      | none => rfl
      | some v => dsimp only; rw [hsame v rfl (.name hkind)]
    | field owner n v =>
      cases v with
      | none => rfl
      | some v =>
        dsimp only
        cases howner : tree.expr? owner with
        | none => cases isStatic <;> rfl
        | some e =>
          cases e with
          | thisRef => dsimp only; rw [hsame v rfl (.field hkind (Tree.expr?_eq_some.1 howner))]
          | _ => cases isStatic <;> rfl
    | _ => rfl

/-- All that reducing a call asks of flow queries is whether the variable keeps its value that its
receiver is. -/
theorem callQualifier?_congr {signature : Signature} {call : Call NodeId}
    (hcall : tree.kind? id = some (.expr (.call call)))
    (hsame : ∀ receiver var, Reduced tree param id (.expr receiver) call.method →
      (tree.expr? receiver).bind Expr.var? = some var →
      keepsValue ⟨symbols, flow⟩ tree param receiver var =
        keepsValue ⟨symbols, wider⟩ tree param receiver var) :
    callQualifier? ⟨symbols, flow⟩ tree param signature call =
      callQualifier? ⟨symbols, wider⟩ tree param signature call := by
  obtain ⟨receiver, method, args, target⟩ := call
  unfold callQualifier?
  match args, receiver with
  | [arg], some receiver =>
    dsimp only
    -- it is asked for calls with one argument that is the parameter, and for no others
    cases harg : isParam tree param arg with
    | false => rfl
    | true =>
      exact boundQualifier?_congr fun var hvar hbound =>
        hsame receiver var (.bound hcall harg hbound) hvar
  | [], none | [], some _ | [_], none | _ :: _ :: _, none | _ :: _ :: _, some _ => rfl

theorem reduceAction?_congr
    (hsame : ∀ value receiver method var, tree.kind? action = some (.stmt (.expr value)) →
      Reduced tree param (tree.skipParens value) (.expr receiver) method →
      (tree.expr? receiver).bind Expr.var? = some var →
      keepsValue ⟨symbols, flow⟩ tree param receiver var =
        keepsValue ⟨symbols, wider⟩ tree param receiver var) :
    reduceAction? ⟨symbols, flow⟩ tree param action =
      reduceAction? ⟨symbols, wider⟩ tree param action := by
  unfold reduceAction? actionExpression?
  -- the question is about the receiver of a call in a statement; nothing else asks a flow query
  cases hstmt : tree.stmt? action with
  | none => rfl
  | some s =>
    cases s with
    | expr value =>
      dsimp only [reduce?]
      cases symbols.resolve? tree (tree.skipParens value) with
      | none => rfl
      | some signature =>
        dsimp only
        cases hexpr : tree.expr? (tree.skipParens value) with
        | none => rfl
        | some e =>
          cases e with
          | call c =>
            dsimp only
            rw [callQualifier?_congr (Tree.expr?_eq_some.1 hexpr) fun receiver var =>
              hsame value receiver c.method var (Tree.stmt?_eq_some.1 hstmt)]
          | create c =>
            obtain ⟨type, args, target⟩ := c
            match args with
            | [arg] => rfl
            | [] | _ :: _ :: _ => rfl
          | _ => rfl
    | _ => rfl

end Forwarding

namespace Candidate

/-- **The last check does not depend on the bounds** once the summary of the body has been made
within them. What it asks about is mentioned in the body and not declared there, so that the summary
has asked about it before. -/
theorem isTrivial_eq_of_checked (h : flow.Narrower wider) (hwf : tree.WellFormed)
    (hbody : tree.Attached body) (hchecked : checkBody ⟨symbols, flow⟩ tree body = .ok ())
    (loopAction : LoopAction) :
    isTrivial ⟨symbols, flow⟩ tree param (GuardChain.of tree body) loopAction =
      isTrivial ⟨symbols, wider⟩ tree param (GuardChain.of tree body) loopAction := by
  unfold isTrivial
  split
  · rfl
  split
  · next hbare =>
    have hguarded := (hwf.grounded hbody).guarded_of
    rw [GuardChain.conditions_of_isBare hbare] at hguarded
    congr 1
    refine Forwarding.reduceAction?_congr fun value receiver method var haction hform hvar => ?_
    have hvalue : tree.Reaches body value := hguarded.reaches_action.tail (by
      simp [Tree.parts_eq_children haction, Kind.children, Stmt.children])
    have hinner := hvalue.trans (tree.reaches_skipParens value)
    have hg := hwf.grounded (hbody.reaches hinner)
    -- the call has no landmarks in it, and so there is no declaration in the body
    have hunmarked : tree.Unmarked value :=
      .of_skipParens (hwf.grounded (hbody.reaches hvalue)) (hform.unmarked hg)
    have hout : BodySummary.isDeclaredIn tree body var = .ok false :=
      hwf.isDeclaredIn_eq_false hbody fun d hd hreaches => by
        simpa [hguarded.not_declares hwf hbody haction hunmarked hreaches] using
          hwf.declares_of_declarationOf? hd
    have hmentions : tree.Mentions var body := ⟨receiver, hinner.tail hform.mem_parts, hvar⟩
    -- the summary has asked for the finality of the variable, and its answer is there
    have hasked := final_of_mentions hchecked hmentions hout
    unfold Forwarding.keepsValue
    rw [h.isEffectivelyFinal_eq_of_answered hasked]
  · rfl

/-- **Looking for a candidate** within bounds gives the candidate that there is, or is given up. -/
theorem of_sameUnless (h : flow.Narrower wider) (hwf : tree.WellFormed)
    (hloop : tree.Attached loop) :
    (of ⟨symbols, flow⟩ tree loop).SameUnless .analysisTimeout (of ⟨symbols, wider⟩ tree loop) := by
  refine (SameUnless.refl (partsOf ⟨symbols, flow⟩ tree loop)).bind fun parts hparts => ?_
  obtain ⟨param, source, body⟩ := parts
  have hbody : tree.Attached body := Tree.attached_body hloop (partsOf_eq_ok hparts)
  refine (checkBody_sameUnless h).bind fun _ hchecked => ?_
  refine (SameUnless.refl _).bind fun action _ => ?_
  rw [isTrivial_eq_of_checked h hwf hbody hchecked]

/-- A loop that is turned down before any flow query is made is not a loop over a collection, stands
in code without function literals, or is incomplete. -/
theorem partsOf_refused {analyzer : Analyzer} {reason : Rejection}
    (h : partsOf analyzer tree loop = refuse reason) :
    reason ∈ [.notForEach, .languageLevel, .incompleteLoop, .notACollection] := by
  unfold partsOf at h
  cases hloop : tree.forEach? loop with
  | none => simp_all [refuse]
  | some found =>
    simp only [hloop] at h
    split at h
    · simp_all [refuse]
    · split at h
      · next source body _ _ =>
        -- the last test is whether the source is a collection, and it may be lost but not given up
        cases hcollection : analyzer.symbols.isCollection tree source with
        | error ref => simp [hcollection, refuse] at h
        | ok collection => cases collection <;> simp_all [refuse]
      · simp_all [refuse]

end Candidate

namespace Inspector

/-- The inspector with other bounds on its flow queries. -/
def within (inspector : Inspector) (flow : Flow) : Inspector :=
  { inspector with analyzer := { inspector.analyzer with flow } }

variable (inspector : Inspector)

/-- **Looking at a loop** within bounds gives the report that there is, or is given up. -/
theorem inspect_sameUnless (h : flow.Narrower wider) (hwf : tree.WellFormed)
    (hloop : tree.Attached loop) :
    ((inspector.within flow).inspect tree loop).SameUnless .analysisTimeout
      ((inspector.within wider).inspect tree loop) :=
  (Candidate.of_sameUnless h hwf hloop).bind fun _ _ => .refl _

/-- **Once canceled**, a loop is turned down for what is wrong with its parts, or because of that.
-/
theorem inspect_of_canceled (h : flow.canceled = true) (hwf : tree.WellFormed) :
    (inspector.within flow).inspect tree loop = refuse .analysisCanceled ∨
      ∃ reason ∈ [.notForEach, .languageLevel, .incompleteLoop, .notACollection],
        ∀ other, (inspector.within other).inspect tree loop = refuse reason := by
  -- the parts are looked at first, and no flow query is made for that
  have hparts : ∀ other, Candidate.partsOf (inspector.within other).analyzer tree loop =
      Candidate.partsOf inspector.analyzer tree loop := fun _ => rfl
  have hanswered : (Candidate.partsOf inspector.analyzer tree loop).Answered fun _ => True :=
    Candidate.partsOf_answered inspector.analyzer hwf
  match hlook : Candidate.partsOf inspector.analyzer tree loop with
  | .ok (param, source, body) =>
    -- the parts are there, and the first flow query is the one for the exits of the body
    have hbody : Candidate.checkBody (inspector.within flow).analyzer tree body =
        refuse .analysisCanceled := Candidate.checkBody_of_canceled h
    left
    rw [inspect, candidate, Candidate.of, hparts, hlook, ok_bind]
    dsimp only
    rw [hbody]
    rfl
  | .error (.because reason) =>
    -- what is wrong with the parts is wrong whatever the bounds are
    refine .inr ⟨reason, Candidate.partsOf_refused hlook, fun other => ?_⟩
    rw [inspect, candidate, Candidate.of, hparts, hlook]
    rfl
  | .error (.dangling ref) =>
    rw [hlook] at hanswered
    exact hanswered.elim

/-- **Bounds only ever keep a report from being made.** Looking at a loop that is in a well-formed
tree comes to an answer. Within any budget the answer is the same as without one, or time is up;
where time is not up, a larger budget makes no difference. Once canceled, a loop for which nothing
has to be found out is turned down as without bounds, and any other is turned down because of that.
-/
theorem inspect_within_bounds (hwf : tree.WellFormed) (hloop : tree.Attached loop) :
    (∃ answer, ((inspector.within .unbounded).inspect tree loop).settle = .ok answer) ∧
      (∀ budget,
        (inspector.within ⟨some budget, false⟩).inspect tree loop = refuse .analysisTimeout ∨
        (inspector.within ⟨some budget, false⟩).inspect tree loop =
          (inspector.within .unbounded).inspect tree loop) ∧
      (∀ budget larger, budget ≤ larger →
        (inspector.within ⟨some budget, false⟩).inspect tree loop ≠ refuse .analysisTimeout →
        (inspector.within ⟨some larger, false⟩).inspect tree loop =
          (inspector.within ⟨some budget, false⟩).inspect tree loop) ∧
      ∀ budget, (inspector.within ⟨budget, true⟩).inspect tree loop = refuse .analysisCanceled ∨
        ∃ reason ∈ [.notForEach, .languageLevel, .incompleteLoop, .notACollection],
          (inspector.within ⟨budget, true⟩).inspect tree loop = refuse reason ∧
            (inspector.within .unbounded).inspect tree loop = refuse reason := by
  refine ⟨((inspector.within .unbounded).inspect_answered hwf hloop).exists_settle,
    fun budget => inspector.inspect_sameUnless (Flow.narrower_of_no_budget _) hwf hloop,
    fun budget larger hle hintime => ?_, fun budget => ?_⟩
  · -- the larger budget is the wider bound, so it can only add to what is found out
    rcases inspector.inspect_sameUnless (Flow.narrower_of_le hle false) hwf hloop with hup | hsame
    · exact absurd hup hintime
    · exact hsame.symm
  · have hbounds : (⟨budget, true⟩ : Flow).canceled = true := rfl
    rcases inspector.inspect_of_canceled hbounds hwf with hcanceled | ⟨reason, hmem, hall⟩
    · exact .inl hcanceled
    · exact .inr ⟨reason, hmem, hall _, hall _⟩

/-- Eleven nodes have to be looked at for a report on the short loop. -/
theorem within_shortLoop :
    ∃ finding, ((knowing []).within .unbounded).inspect shortLoop ⟨9⟩ = .ok finding ∧
      (∀ budget, 11 ≤ budget →
        ((knowing []).within ⟨some budget, false⟩).inspect shortLoop ⟨9⟩ = .ok finding) ∧
      ((knowing []).within ⟨some 10, false⟩).inspect shortLoop ⟨9⟩ = refuse .analysisTimeout ∧
      ∀ budget, ((knowing []).within ⟨budget, true⟩).inspect shortLoop ⟨9⟩ =
        refuse .analysisCanceled := by
  have hwf : shortLoop.WellFormed := .of_isInOrder (by decide)
  obtain ⟨-, -, henough, hcanceled⟩ :=
    inspect_within_bounds (knowing []) hwf (Tree.Reaches.of_mem (show (⟨9⟩ : NodeId) ∈ _ by decide))
  -- one budget is tried out, and the theorem says that all larger ones do as well
  obtain ⟨finding, hreported, hwithin⟩ : ∃ finding,
      ((knowing []).within .unbounded).inspect shortLoop ⟨9⟩ = .ok finding ∧
        ((knowing []).within ⟨some 11, false⟩).inspect shortLoop ⟨9⟩ = .ok finding :=
    ⟨_, by cbv, by cbv⟩
  refine ⟨finding, hreported, fun budget hle => ?_, by cbv, fun budget => ?_⟩
  · rw [henough 11 budget hle (by rw [hwithin]; exact refuse_ne_ok.symm), hwithin]
  · rcases hcanceled budget with hcanceled | ⟨reason, -, -, hrefused⟩
    · exact hcanceled
    · exact absurd (hrefused.symm.trans hreported) refuse_ne_ok

end Inspector

end LoopToStream
