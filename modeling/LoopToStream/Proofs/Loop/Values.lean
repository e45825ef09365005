import LoopToStream.Proofs.Loop.Exceptions
import LoopToStream.Proofs.Tree.Parentheses

/-!
# Values that are collected

A value that a loop adds to a collection becomes the body of a mapping function, which may not throw
a checked exception and should not need type arguments that the loop has left to inference. The
check of an accumulation looks into a value that is a call (`Analyzer.Mappable`), but only into one
that stands there as it is. `Accumulation.value_of_eq_ok` says what that comes to:

* a call without parentheses around it passes if and only if it is known, has no type parameters,
  and declares nothing but unchecked exceptions;
* a call in parentheses is not looked into, so that an action is an accumulation whatever the call
  is.

For a loop that is converted, the check of its body (`BodySummary.verdict`) has looked at the call
as well, parentheses or not: between the body and the value there is neither a function literal,
inside of which calls are not looked at, nor a `try`, which might catch what is thrown
(`Candidate.Found.reachesPlainly`). So exceptions are no way around the check, and type parameters
are the only one. The loop `for (Item x : source) results.add((convert(x)));` takes it
(`Accumulation.convertLoop_collected`).
-/

namespace LoopToStream

open Relation

variable {analyzer : Analyzer} {tree : Tree} {loop call a n t : NodeId}

/-- No exception that is declared has to be caught or declared again. -/
def Signature.ThrowsUnchecked (signature : Signature) (hierarchy : Hierarchy) : Prop :=
  ∀ type ∈ signature.throws, hierarchy.isSubtype type.name "RuntimeException" = true ∨
    hierarchy.isSubtype type.name "Error" = true

/-- **A call that a mapping function can make** as it stands. -/
def Analyzer.Mappable (analyzer : Analyzer) (tree : Tree) (call : NodeId) : Prop :=
  ∃ signature, analyzer.symbols.resolve? tree call = some signature ∧ signature.typeParams = 0 ∧
    signature.ThrowsUnchecked analyzer.symbols.hierarchy

namespace Tree

/-- A call or a creation of an object stands at an id. -/
def IsCall (tree : Tree) (id : NodeId) : Prop := ∃ e, tree.expr? id = some e ∧ e.isCallLike = true

theorem isCall_iff : tree.IsCall n ↔ (tree.expr? n).any Expr.isCallLike = true := by
  simp [IsCall, Option.any_eq_true]

/-- Code whose parts are run as part of the code around it, with nothing that catches an exception.
-/
def IsPlain (tree : Tree) (id : NodeId) : Prop :=
  tree.isClosure id = false ∧
    ∀ protectedPart handlers, tree.stmt? id ≠ some (.tryCatch protectedPart handlers)

/-- The node `n` is `a` or below it, and all the code on the way there is plain. -/
def ReachesPlainly (tree : Tree) : NodeId → NodeId → Prop :=
  ReflTransGen fun p c => tree.IsPlain p ∧ c ∈ tree.parts p

theorem IsPlain.of_stmt {s : Stmt NodeId} (here : tree.kind? n = some (.stmt s))
    (hno : ∀ protectedPart handlers, s ≠ .tryCatch protectedPart handlers) : tree.IsPlain n := by
  refine ⟨by simp [isClosure, expr?, here, Kind.expr?], fun b hs h => ?_⟩
  exact hno b hs (Option.some.inj ((stmt?_eq_some.2 here).symm.trans h))

theorem IsPlain.of_expr {e : Expr NodeId} (here : tree.kind? n = some (.expr e))
    (hopen : e.isClosure = false) : tree.IsPlain n := by
  refine ⟨by simp [isClosure, expr?_eq_some.2 here, hopen], fun b hs h => ?_⟩
  simp [stmt?, here, Kind.stmt?] at h

/-- Parentheses are plain. -/
theorem Strips.reachesPlainly (h : tree.Strips a n) : tree.ReachesPlainly a n :=
  h.path fun _ _ here => .of_expr here rfl

/-- **What is between the ends of a way** is on the way, since nothing is linked from two places. By
induction on the way. -/
theorem LinkedOnce.of_between {P : NodeId → Prop} (h : tree.LinkedOnce) (ha : tree.Attached a)
    (hway : ReflTransGen (fun p c => P p ∧ c ∈ tree.parts p) a n) (hat : tree.Reaches a t)
    (htn : tree.StrictlyReaches t n) : P t := by
  induction hway using ReflTransGen.head_induction_on with
  | refl => exact absurd (TransGen.trans_right hat htn) (h.irrefl ha)
  | @head a c hstep hcn ih =>
    have hcn : tree.Reaches c n := ReflTransGen.mono (fun _ _ hstep => hstep.2) _ _ hcn
    rcases reaches_iff.1 hat with rfl | ⟨d, hd, hdt⟩
    · exact hstep.1
    · -- both ways go down through the same part
      obtain rfl : c = d := by
        by_contra hne
        exact h.siblings_disjoint ha hstep.2 hd hne hcn (hdt.trans htn.reaches)
      exact ih (ha.of_mem hd) hdt

/-- Guards and the blocks around them are plain. -/
theorem Guarded.reachesPlainly {conds : List NodeId} {id action : NodeId}
    (h : tree.Guarded id conds action) : tree.ReachesPlainly id action := by
  induction h with
  | wrapped only _ ih =>
    obtain ⟨stmts, hkind, -⟩ := onlyStatement?_eq_some only
    exact .head ⟨.of_stmt hkind (by simp), mem_parts_of_onlyStatement? only⟩ ih
  | guard guard _ ih =>
    exact .head ⟨.of_stmt (guard?_eq_some guard) (by simp), by simp [parts_of_guard? guard]⟩ ih
  | bare => exact .refl

/-- Nothing on a plain way catches what is thrown at its end. -/
theorem LinkedOnce.not_isCaught (h : tree.LinkedOnce) (ha : tree.Attached a)
    (hway : tree.ReachesPlainly a n) (hierarchy : Hierarchy) (name : String) :
    ¬ tree.IsCaught hierarchy a n name := by
  rintro ⟨t, protectedPart, handlers, hat, hstmt, hsite, -⟩
  have hpart : protectedPart ∈ tree.parts t := by
    simp [parts_eq_children (stmt?_eq_some.1 hstmt), Kind.children, Stmt.children]
  exact (h.of_between ha hway hat (strictlyReaches_iff.2 ⟨_, hpart, hsite⟩)).2 _ _ hstmt

end Tree

/-! ### The check of the value -/

namespace Accumulation

variable {chain : GuardChain} {accumulation : Accumulation} {value : NodeId}

/-- **A value is let through** if it can be mapped, in case it is a call that stands there without
parentheses. -/
theorem checkValue_eq_ok : checkValue analyzer tree value = .ok () ↔
    (tree.IsCall value → analyzer.Mappable tree value) := by
  unfold checkValue
  by_cases hcall : tree.IsCall value
  swap
  · -- what is no call is not looked at
    have hany : (tree.expr? value).any Expr.isCallLike = false :=
      Bool.eq_false_iff.2 (mt Tree.isCall_iff.2 hcall)
    simp [hany, hcall]
  simp only [Tree.isCall_iff.1 hcall, Bool.not_true, Bool.false_eq_true, if_false]
  cases hresolve : analyzer.symbols.resolve? tree value with
  | none =>
    -- an unknown call is turned down, and cannot be mapped either
    refine ⟨fun h => ?_, fun h => ?_⟩
    · obtain ⟨text, -, h⟩ := bind_eq_ok.1 h
      simp at h
    · obtain ⟨signature, hsome, -⟩ := h hcall
      rw [hresolve] at hsome
      cases hsome
  | some signature =>
    -- all that is asked of the exceptions is that they are unchecked
    have hunchecked : signature.ThrowsUnchecked analyzer.symbols.hierarchy ↔
        ∀ type ∈ signature.throws, analyzer.symbols.hierarchy.isUnchecked type.name = true := by
      simp [Signature.ThrowsUnchecked, Hierarchy.isUnchecked]
    have hmappable : analyzer.Mappable tree value ↔ signature.typeParams = 0 ∧
        signature.ThrowsUnchecked analyzer.symbols.hierarchy := by
      simp [Analyzer.Mappable, hresolve]
    simp only [hcall, forall_const, hmappable, hunchecked]
    cases hfind :
        signature.throws.find? fun type => !analyzer.symbols.hierarchy.isUnchecked type.name with
    | some type =>
      -- the first exception that is checked refutes both
      have hno := List.find?_some hfind
      have hmem := List.mem_of_find?_eq_some hfind
      simp only [refuse_ne_ok, false_iff, not_and, not_forall]
      exact fun _ => ⟨type, hmem, by simpa using hno⟩
    | none =>
      have hall :
          ∀ type ∈ signature.throws, analyzer.symbols.hierarchy.isUnchecked type.name = true := by
        simpa using hfind
      by_cases hgeneric : signature.typeParams > 0
      · have hne : signature.typeParams ≠ 0 := fun h => by simp [h] at hgeneric
        simp [hgeneric, hne]
      · have hzero : signature.typeParams = 0 := by
          simpa using hgeneric
        simpa [hzero] using hall

/-- **All that is asked of an accumulation**, except for its value: a known method `add` of one
parameter, a collection that it is called on, and no guard that may notice what has been added. -/
structure Adds (analyzer : Analyzer) (tree : Tree) (chain : GuardChain)
    (accumulation : Accumulation) :
    Prop where
  call : ∃ call, addCall? tree chain.action = some (accumulation.call, call, accumulation.value) ∧
    call.receiver = accumulation.qualifier
  method : ∃ signature, analyzer.symbols.resolve? tree accumulation.call = some signature ∧
    signature.name = "add" ∧ signature.params.length = 1
  target : ∃ className, targetOf tree chain.action accumulation.qualifier =
      .ok (accumulation.target, className) ∧
    analyzer.symbols.hierarchy.isSubtype className "Collection" = true
  unnoticed :
      (chain.conditions.anyM (accumulation.target.isObservedBy tree) : Lookup Bool) = .ok false

/-- **An accumulation is recognised** if it is one and its value can be mapped. -/
theorem of_eq_ok_iff : of analyzer tree chain = .ok accumulation ↔
    Adds analyzer tree chain accumulation ∧
      (tree.IsCall accumulation.value → analyzer.Mappable tree accumulation.value) := by
  constructor
  · intro h
    have hchecked := h
    unfold of at h
    obtain ⟨call, className, hadd, hreceiver, htarget, hcollection, hguards⟩ := of_eq_ok hchecked
    simp only [hadd] at h
    -- the call is known, or the action would have been turned down
    cases hsignature : analyzer.symbols.resolve? tree accumulation.call with
    | none =>
      simp only [hsignature] at h
      obtain ⟨text, -, h⟩ := bind_eq_ok.1 h
      simp at h
    | some signature =>
      simp only [hsignature] at h
      split at h
      · simp at h
      · -- the name and the parameters have been checked before the target
        next hmethod =>
        simp only [hreceiver, htarget, ok_bind, hcollection, Bool.not_true, Bool.false_eq_true,
          if_false, hguards, Attempt.liftM_ok] at h
        obtain ⟨⟨⟩, hvalue, -⟩ := bind_eq_ok.1 h
        simp only [ne_eq, not_or, not_not] at hmethod
        exact ⟨⟨⟨call, hadd, hreceiver⟩, ⟨signature, hsignature, hmethod⟩,
          ⟨className, htarget, hcollection⟩, hguards⟩, checkValue_eq_ok.1 hvalue⟩
  · rintro ⟨⟨⟨call, hadd, hreceiver⟩, ⟨signature, hsignature, hname, hparams⟩,
      ⟨className, htarget, hcollection⟩, hguards⟩, hvalue⟩
    -- each check succeeds, in the order in which they are made
    rw [of]
    simp only [hadd, hsignature, hname, hparams, ne_eq, not_true, or_self, if_false,
      hreceiver, htarget, ok_bind, hcollection, Bool.not_true, Bool.false_eq_true, hguards,
      Attempt.liftM_ok, checkValue_eq_ok.2 hvalue]
    rfl

/-- From an action that adds, the way to the value is plain. -/
theorem Found.reachesPlainly {action : NodeId} (h : Found tree action accumulation)
    (hg : tree.Grounded action) : tree.ReachesPlainly action accumulation.value := by
  obtain ⟨outer, houter, hcall⟩ := h.statement
  obtain ⟨target, hadd⟩ := h.call
  have hstmt := Tree.stmt?_eq_some.1 houter
  have hmem : outer ∈ tree.parts action := by
    simp [Tree.parts_eq_children hstmt, Kind.children, Stmt.children]
  have hparens := (hg.of_mem_parts hmem).strips_skipParens
  rw [← hcall] at hparens
  -- down from the statement, through the parentheses, and into the call
  exact (ReflTransGen.head ⟨.of_stmt hstmt (by simp), hmem⟩ hparens.reachesPlainly).tail
    ⟨.of_expr (Tree.call?_eq_some.1 hadd) rfl, by simp [h.parts_call]⟩

end Accumulation

/-! ### The check of the body -/

namespace BodySummary

/-- A body is only passed if all of its calls are known and no checked exception leaves it. -/
theorem calls_of_safe {summary : BodySummary} (h : summary.verdict tree = .ok .safe) :
    summary.checked = [] ∧ summary.unresolved = [] := by
  cases hfind : summary.captured.find? fun capture => !capture.2 with
  | some found =>
    simp only [verdict, exits_of_safe h, hfind] at h
    obtain ⟨declared, -, h⟩ := bind_eq_ok.1 h
    cases h
  | none =>
    simp only [verdict, exits_of_safe h, hfind] at h
    split at h
    · cases h
    · obtain ⟨text, -, h⟩ := bind_eq_ok.1 h
      cases h
    · next hchecked hunresolved => exact ⟨hchecked, hunresolved⟩

end BodySummary

namespace Candidate

variable {candidate : Candidate} {accumulation : Accumulation}

/-- **From the body to the value that is collected** there is only code that is run with the body.
-/
theorem Found.reachesPlainly (h : Found analyzer tree loop candidate) (hwf : tree.WellFormed)
    (hloop : tree.Attached loop)
    (hadds : Accumulation.Found tree candidate.chain.action accumulation) :
    tree.ReachesPlainly candidate.body accumulation.value :=
  (h.guarded hwf hloop).reachesPlainly.trans
    (hadds.reachesPlainly (hwf.grounded (h.action_attached hwf hloop)))

/-- **A call that the body makes itself** is known, and what it may throw is unchecked. -/
theorem Found.throwsUnchecked (h : Found analyzer tree loop candidate) (hwf : tree.WellFormed)
    (hloop : tree.Attached loop)
    (hway : tree.ReachesPlainly candidate.body call)
    (hcall : tree.IsCall call) :
    ∃ signature, analyzer.symbols.resolve? tree call = some signature ∧
      signature.ThrowsUnchecked analyzer.symbols.hierarchy := by
  have hbody := h.body_attached hloop
  obtain ⟨kind, here, hadmits⟩ := hwf.fits loop _ hloop h.kind?_eq .statement candidate.body
    (by simp [Kind.slots, Stmt.slots])
  cases kind with
  | expr _ => cases hadmits
  | comment _ => cases hadmits
  | stmt s =>
    have hstmt := Tree.stmt?_eq_some.2 here
    have hopen : tree.isClosure candidate.body = false := by
      simp [Tree.isClosure, Tree.expr?, here, Kind.expr?]
    obtain ⟨summary, hsummary, hsafe⟩ := checkBody_eq_ok h.body_checked
    obtain ⟨hchecked, hunresolved⟩ := BodySummary.calls_of_safe hsafe
    obtain ⟨calls, names, hcalls, hnames, hlisted, hunknown⟩ := BodySummary.calls_of_eq_ok hsummary
    -- the call is among those that have been looked at
    have hin : tree.IsCallIn candidate.body call :=
      ⟨ReflTransGen.mono (fun _ _ hstep => ⟨hstep.1.1, hstep.2⟩) _ _ hway, hcall⟩
    have hmem : call ∈ calls := by
      rw [BodySummary.callsIn_eq_filter hwf hbody hopen] at hcalls
      rw [← Except.ok.inj hcalls]
      simpa using ⟨Tree.mem_preorder_iff.2 hin.1.reaches, hin⟩
    -- a body with an unknown call is turned down
    have hknown : analyzer.symbols.resolve? tree call ≠ none := by
      rw [hunresolved] at hunknown
      simpa using List.filter_eq_nil_iff.1 hunknown.symm call hmem
    obtain ⟨signature, hsignature⟩ := Option.ne_none_iff_exists'.1 hknown
    obtain ⟨escaping, hescaping, hnames⟩ := exists_of_mapM_eq_ok hnames call hmem
    refine ⟨signature, hsignature, fun type htype => ?_⟩
    -- an exception that is checked would be listed, as nothing catches it
    by_contra hneither
    have hunchecked : analyzer.symbols.hierarchy.isUnchecked type.name = false := by
      simpa [Hierarchy.isUnchecked] using hneither
    have hname : type.name ∈ escaping :=
      (BodySummary.mem_escaping hwf hbody (BodySummary.strictlyReaches_of_isCallIn hstmt hin)
        hnames).2 ⟨signature, hsignature, ⟨type, htype, rfl⟩, hunchecked,
          hwf.linkedOnce.not_isCaught hbody hway _ _⟩
    have hall : type.name ∈ summary.checked := by
      rw [hlisted, Ascending.mem_ofList]
      exact List.mem_flatten.2 ⟨escaping, hescaping, hname⟩
    rw [hchecked] at hall
    cases hall

end Candidate

namespace Accumulation

variable {chain : GuardChain} {accumulation : Accumulation}

/-- **What is known about a call whose value is collected**, up to parentheses. It can be mapped if
there are no parentheses, and nothing else is asked of it then. In a loop that is converted, it is
known and throws no checked exception even in parentheses. -/
theorem value_of_eq_ok (hwf : tree.WellFormed) (hstrips : tree.Strips accumulation.value call)
    (hcall : tree.IsCall call) :
    (of analyzer tree chain = .ok accumulation ↔ Adds analyzer tree chain accumulation ∧
      (accumulation.value = call → analyzer.Mappable tree call)) ∧
    ∀ loop candidate, tree.isAttached loop = .ok true →
      Candidate.of analyzer tree loop = .ok candidate →
      candidate.action = .accumulate accumulation →
      ∃ signature, analyzer.symbols.resolve? tree call = some signature ∧
        signature.ThrowsUnchecked analyzer.symbols.hierarchy ∧
        (accumulation.value = call → signature.typeParams = 0) := by
  -- in parentheses the value is no call
  have hvalue : (tree.IsCall accumulation.value → analyzer.Mappable tree accumulation.value) ↔
      (accumulation.value = call → analyzer.Mappable tree call) := by
    rcases hstrips.eq_or_paren with heq | ⟨inner, here⟩
    · simp [heq, hcall]
    · have hno : ¬ tree.IsCall accumulation.value := by
        simp [Tree.isCall_iff, Tree.expr?_eq_some.2 here, Expr.isCallLike]
      have hne : accumulation.value ≠ call := fun heq => hno (heq ▸ hcall)
      simp [hno, hne]
  refine ⟨of_eq_ok_iff.trans (and_congr_right fun _ => hvalue), ?_⟩
  -- the body is run through before its action, and it makes the call
  intro loop candidate hattached hcandidate haction
  have hfound := Candidate.found_of_eq_ok hcandidate
  have hloop := hwf.attached_of_isAttached hattached
  have hchecked := LoopAction.accumulation_of_eq_ok (haction ▸ hfound.action_eq)
  have hway := hfound.reachesPlainly hwf hloop (found_of_eq_ok hchecked)
  obtain ⟨signature, hsignature, hthrows⟩ :=
    hfound.throwsUnchecked hwf hloop (hway.trans hstrips.reachesPlainly) hcall
  refine ⟨signature, hsignature, hthrows, fun heq => ?_⟩
  obtain ⟨other, hother, hzero, -⟩ := hvalue.1 (of_eq_ok_iff.1 hchecked).2 heq
  obtain rfl := Option.some.inj (hsignature.symm.trans hother)
  exact hzero

/-- The loop `for (Item x : source) results.add((convert(x)));`. -/
def convertLoop : Tree where
  nodes := #[
    ⟨.expr (.name "source" (some ⟨0⟩)), some ⟨7⟩, Tree.placeOf 0⟩,
    ⟨.expr (.name "results" (some ⟨2⟩)), some ⟨5⟩, Tree.placeOf 1⟩,
    ⟨.expr (.name "x" (some ⟨1⟩)), some ⟨3⟩, Tree.placeOf 2⟩,
    ⟨.expr (.call ⟨none, "convert", [⟨2⟩], some ⟨1⟩⟩), some ⟨4⟩, Tree.placeOf 3⟩,
    ⟨.expr (.paren ⟨3⟩), some ⟨5⟩, Tree.placeOf 4⟩,
    ⟨.expr (.call ⟨some ⟨1⟩, "add", [⟨4⟩], some ⟨0⟩⟩), some ⟨6⟩, Tree.placeOf 5⟩,
    ⟨.stmt (.expr ⟨5⟩), some ⟨7⟩, Tree.placeOf 6⟩,
    ⟨.stmt (.forEach ⟨⟨1⟩, some ⟨0⟩, some ⟨6⟩⟩), none, Tree.placeOf 7⟩]
  vars :=
    #[⟨"source", .simple "List", .parameter, false⟩, ⟨"x", .simple "Item", .loopParameter, false⟩,
    ⟨"results", .simple "List", .parameter, false⟩]
  root := ⟨7⟩
  scope := .inStatic "Sample"
  revision := 0

/-- Lists, and an exception that is unchecked. -/
def listsAndFailures : Hierarchy :=
  ⟨[("List", ["Collection"]), ("Collection", []), ("BadItem", ["RuntimeException"])]⟩

/-- Where `convert` has a type parameter, and throws this exception. -/
def knowingConvert : Analyzer :=
  let add : Signature :=
    ⟨"Collection", "add", [.simple "Object"], 0, [], some (.simple "boolean"), false⟩
  let convert : Signature := ⟨"Sample", "convert", [.simple "Item"], 1,
    [.simple "BadItem"], some (.simple "T"), true⟩
  ⟨⟨listsAndFailures, #[add, convert], []⟩, .unbounded⟩

theorem wellFormed_convertLoop : convertLoop.WellFormed := .of_isInOrder (by decide)

theorem strips_convertLoop : convertLoop.Strips ⟨4⟩ ⟨3⟩ := .paren rfl (.of_expr rfl nofun)

/-- The loop is converted, and so what `convert` throws is unchecked. -/
theorem value_convertLoop :
    listsAndFailures.isSubtype "BadItem" "RuntimeException" = true ∨
      listsAndFailures.isSubtype "BadItem" "Error" = true := by
  obtain ⟨candidate, hcandidate, haction⟩ : ∃ candidate,
      Candidate.of knowingConvert convertLoop ⟨7⟩ = .ok candidate ∧
        candidate.action = .accumulate ⟨⟨5⟩, .variable ⟨2⟩, some ⟨1⟩, ⟨4⟩⟩ := ⟨_, by cbv, by cbv⟩
  have hcall : convertLoop.IsCall ⟨3⟩ := ⟨_, rfl, rfl⟩
  obtain ⟨-, hlooked⟩ :
      (of knowingConvert convertLoop (.bare ⟨6⟩) = .ok ⟨⟨5⟩, .variable ⟨2⟩, some ⟨1⟩, ⟨4⟩⟩ ↔ _) ∧
        _ :=
    value_of_eq_ok wellFormed_convertLoop strips_convertLoop hcall
  obtain ⟨signature, hsignature, hthrows, -⟩ := hlooked ⟨7⟩ candidate (by cbv) hcandidate haction
  cases hsignature
  exact hthrows (.simple "BadItem") (List.mem_singleton_self _)

/-- **The value of a generic call in parentheses is collected.** -/
theorem convertLoop_collected : convertLoop.WellFormed ∧
    of knowingConvert convertLoop (GuardChain.of convertLoop ⟨6⟩) =
      .ok ⟨⟨5⟩, .variable ⟨2⟩, some ⟨1⟩, ⟨4⟩⟩ ∧
    convertLoop.Strips ⟨4⟩ ⟨3⟩ ∧ convertLoop.IsCall ⟨3⟩ ∧
    ¬ knowingConvert.Mappable convertLoop ⟨3⟩ := by
  refine ⟨wellFormed_convertLoop, by cbv, strips_convertLoop, ⟨_, rfl, rfl⟩, ?_⟩
  rintro ⟨signature, hsignature, hzero, -⟩
  cases hsignature
  exact absurd hzero (by decide)

end Accumulation

end LoopToStream
