import LoopToStream.Proofs.Flow.Bounds
import LoopToStream.Proofs.Flow.Exits
import LoopToStream.Proofs.Inspection.Applying
import LoopToStream.Proofs.Loop.Answering
import LoopToStream.Proofs.Tree.Mentions
import LoopToStream.Proofs.Tree.Undisturbed

/-!
# Variables that a loop body captures

A function literal may refer to variables from outside only if they keep their values. This file
says what that comes to for a loop that is reported, in terms of the code around it:

* `Tree.Assigns` — an expression assigns, increments or decrements a variable, which it may name
  with a field or with parentheses around it. It is what the flow queries count as a write
  (`Grounded.writesTo_iff`).
* `Candidate.final_of_mentions` — every variable that the body of a checked loop mentions and does
  not declare has been asked about, and the answer was that it keeps its value.
* `Inspector.unassigned_of_reported` — such a variable is assigned nowhere in the body. It is
  assigned nowhere else in the tree either, unless it is a local variable without an initial value,
  which may be assigned once, outside of the body.
-/

namespace LoopToStream

namespace Tree

variable {tree : Tree} {v : VarId} {id site body d : NodeId} {declared : Variable}

/-! ### Assignments -/

/-- The expression at an id stands for a variable: a name or a field, perhaps in parentheses. -/
inductive StandsFor (tree : Tree) (v : VarId) : NodeId → Prop where
  | name {id : NodeId} {n : String} (here : tree.kind? id = some (.expr (.name n (some v)))) :
      StandsFor tree v id
  | field {id receiver : NodeId} {n : String}
      (here : tree.kind? id = some (.expr (.field receiver n (some v)))) : StandsFor tree v id
  | paren {id inner : NodeId} (here : tree.kind? id = some (.expr (.paren inner)))
      (below : StandsFor tree v inner) : StandsFor tree v id

/-- **The expression at an id assigns a variable**, by an assignment, with or without an operator,
or by an increment or decrement. -/
inductive Assigns (tree : Tree) (v : VarId) (site : NodeId) : Prop where
  | assign {op : Option BinaryOp} {target value : NodeId}
      (here : tree.kind? site = some (.expr (.assign op target value)))
      (stands : tree.StandsFor v target)
  | step {op : UnaryOp} {operand : NodeId}
      (here : tree.kind? site = some (.expr (.unary op operand)))
      (steps : op ∈ [.preInc, .preDec, .postInc, .postDec]) (stands : tree.StandsFor v operand)

/-- What stands for a variable mentions it. -/
theorem StandsFor.mentions (h : tree.StandsFor v id) : tree.Mentions v id := by
  induction h with
  | name here => exact ⟨_, .refl _, by rw [expr?_eq_some.2 here]; rfl⟩
  | field here => exact ⟨_, .refl _, by rw [expr?_eq_some.2 here]; rfl⟩
  | paren here _ ih => exact ih.of_reaches (.of_mem (by simp [parts_eq_children here, Kind.children,
      Expr.children]))

theorem Assigns.mentions (h : tree.Assigns v site) : tree.Mentions v site := by
  cases h with
  | assign here stands => exact stands.mentions.of_reaches (.of_mem (by
      simp [parts_eq_children here, Kind.children, Expr.children]))
  | step here _ stands => exact stands.mentions.of_reaches (.of_mem (by
      simp [parts_eq_children here, Kind.children, Expr.children]))

/-- An expression stands for the variable that is seen through its parentheses. By induction on the
expression. -/
theorem Grounded.variableAt?_eq_some (hg : tree.Grounded id) :
    tree.variableAt? id = some v ↔ tree.StandsFor v id := by
  induction hg with
  | @layer a kind here below ih =>
    -- one layer: either there are parentheses around an expression, or what stands here decides
    have hg : tree.Grounded a := .layer here below
    rw [variableAt?, hg.skipParens_eq]
    cases hinner : tree.parenthesised? a with
    | some inner =>
      have hparen := parenthesised?_eq_some.1 hinner
      obtain rfl : kind = .expr (.paren inner) := Option.some.inj (here.symm.trans hparen)
      -- with parentheses the expression inside decides
      refine (ih inner (by simp [Kind.children, Expr.children])).trans ⟨.paren here, fun h => ?_⟩
      cases h with
      | name h => simp [here] at h
      | field h => simp [here] at h
      | paren h below =>
        simp only [here, Option.some.injEq, Kind.expr.injEq, Expr.paren.injEq] at h
        exact h ▸ below
    | none =>
      have hno : ∀ inner, kind ≠ .expr (.paren inner) := fun inner h => by
        simp [parenthesised?_eq_some.2 (h ▸ here)] at hinner
      dsimp only
      constructor
      · -- without them there has to be a name or a field of the variable
        intro h
        obtain ⟨e, he, hvar⟩ := Option.bind_eq_some_iff.1 h
        have he := expr?_eq_some.1 he
        cases e with
        | name n w => exact .name (n := n) (by rw [he, ← show w = some v from hvar])
        | field receiver n w => exact .field (n := n) (by rw [he, ← show w = some v from hvar])
        | _ => simp [Expr.var?] at hvar
      · intro h
        cases h with
        | name h => rw [expr?_eq_some.2 h]; rfl
        | field h => rw [expr?_eq_some.2 h]; rfl
        | paren h => exact absurd (Option.some.inj (here.symm.trans h)) (hno _)

/-- **Writes are assignments.** -/
theorem Grounded.writesTo_iff (hg : tree.Grounded site) :
    tree.writesTo v site = true ↔ tree.Assigns v site := by
  rw [writesTo, decide_eq_true_eq, Option.bind_eq_some_iff]
  constructor
  · rintro ⟨target, htarget, hv⟩
    have hoverwrites := writtenAt?_eq_some.1 htarget
    have hstands := (hg.of_mem_parts hoverwrites.mem_parts).variableAt?_eq_some.1 hv
    cases hoverwrites with
    | assign here => exact .assign here hstands
    | step here steps => exact .step here steps hstands
  · intro h
    obtain ⟨target, hoverwrites, hstands⟩ :
        ∃ target, tree.Overwrites site target ∧ tree.StandsFor v target := by
      cases h with
      | assign here stands => exact ⟨_, .assign here, stands⟩
      | step here steps stands => exact ⟨_, .step here steps, stands⟩
    exact ⟨target, writtenAt?_eq_some.2 hoverwrites,
      (hg.of_mem_parts hoverwrites.mem_parts).variableAt?_eq_some.2 hstands⟩

/-! ### Keeping a value -/

/-- A local variable whose declaration has no initial value. -/
theorem WellFormed.declares_of_hasInitialValue? (hwf : tree.WellFormed)
    (h : Flow.hasInitialValue? tree v = .ok (some false)) :
    ∃ d, tree.declarationOf? v = .ok (some d) ∧ tree.stmt? d = some (.declare v none) := by
  obtain ⟨declaration, hdeclaration, h⟩ := bind_eq_ok.1 h
  cases declaration with
  | none => cases h
  | some d =>
    refine ⟨d, hdeclaration, ?_⟩
    have hdeclares := hwf.declares_of_declarationOf? hdeclaration
    dsimp only at h
    split at h
    · next w init hstmt =>
      rw [stmt?_eq_some.1 hstmt] at hdeclares
      obtain rfl : w = v := by simpa [declares] using hdeclares
      cases init with
      | none => exact hstmt
      | some _ => cases h
    · cases h

/-- What is declared elsewhere, or nowhere, is not declared in some code. -/
theorem WellFormed.isDeclaredIn_eq_false (hwf : tree.WellFormed) (hbody : tree.Attached body)
    (hout : ∀ d, tree.declarationOf? v = .ok (some d) → ¬ tree.Reaches body d) :
    BodySummary.isDeclaredIn tree body v = .ok false := by
  obtain ⟨declaration, hdeclaration, hlt⟩ := hwf.exists_declarationOf? v
  rw [BodySummary.isDeclaredIn, hdeclaration, ok_bind]
  cases declaration with
  | none => rfl
  | some d =>
    dsimp only
    rw [hwf.isAncestor_eq_of_attached hbody (hlt d rfl)]
    simp [hout d hdeclaration]

/-- **What it takes for a variable to keep its value**, if it is not declared final: that it is
written nowhere or, without an initial value, once, and then outside. -/
theorem WellFormed.writeSites_of_isEffectivelyFinal (hwf : tree.WellFormed)
    (hdeclared : tree.var v = .ok declared) (hfinal : declared.isFinal = false)
    (h : Flow.unbounded.isEffectivelyFinal tree v body = .ok true) :
    tree.writeSites v = [] ∨ declared.kind = .localVariable ∧
      Flow.hasInitialValue? tree v = .ok (some false) ∧
      ∃ site, tree.writeSites v = [site] ∧ tree.isAncestor body site = .ok false := by
  rw [hwf.isEffectivelyFinal_eq, hdeclared, Attempt.liftM_ok, ok_bind, hfinal] at h
  simp only [Bool.false_eq_true, if_false] at h
  split at h
  · next hkind =>
    -- of a local variable the declaration tells whether it starts with a value
    obtain ⟨initial, hinitial, h⟩ := bind_eq_ok.1 h
    split at h
    · exact .inl (List.isEmpty_iff.1 (Except.ok.inj h))
    · split at h
      · next hsites => exact .inl hsites
      · -- there is one write, which has been found not to be inside
        next site hsites =>
        obtain ⟨above, habove, h⟩ := bind_eq_ok.1 h
        obtain rfl : above = false := by simpa using h
        exact .inr ⟨hkind, Attempt.liftM_eq_ok.1 hinitial, site, hsites,
          Attempt.liftM_eq_ok.1 habove⟩
      · cases h
    · cases h
  · exact .inl (List.isEmpty_iff.1 (Except.ok.inj h))

/-- **The same in terms of assignments.** -/
theorem WellFormed.assigns_of_isEffectivelyFinal {declaration : Option NodeId}
    (hwf : tree.WellFormed) (hbody : tree.Attached body) (hdeclared : tree.var v = .ok declared)
    (hfinal : declared.isFinal = false) (hdeclaration : tree.declarationOf? v = .ok declaration)
    (h : Flow.unbounded.isEffectivelyFinal tree v body = .ok true) :
    (∀ site, tree.Attached site → ¬ tree.Assigns v site) ∨
      declared.kind = .localVariable ∧ (∃ d ∈ declaration, tree.stmt? d = some (.declare v none)) ∧
      ∃ site, tree.Attached site ∧ tree.Assigns v site ∧ ¬ tree.Reaches body site ∧
        ∀ other, tree.Attached other → tree.Assigns v other → other = site := by
  have hsites : ∀ site, site ∈ tree.writeSites v ↔ tree.Attached site ∧ tree.Assigns v site :=
    fun site => mem_writeSites.trans
      (and_congr_right fun hsite => (hwf.grounded hsite).writesTo_iff)
  rcases hwf.writeSites_of_isEffectivelyFinal hdeclared hfinal h with
    hnone | ⟨hkind, hinitial, site, hone, houtside⟩
  · left
    intro site hsite hassigns
    simpa [hnone] using (hsites site).2 ⟨hsite, hassigns⟩
  · right
    obtain ⟨d, hd, hstmt⟩ := hwf.declares_of_hasInitialValue? hinitial
    obtain rfl : declaration = some d := Except.ok.inj (hdeclaration.symm.trans hd)
    obtain ⟨hsite, hassigns⟩ := (hsites site).1 (by simp [hone])
    rw [hwf.isAncestor_eq_of_attached hbody (hwf.lt_size hsite)] at houtside
    refine ⟨hkind, ⟨d, rfl, hstmt⟩, site, hsite, hassigns, by simpa using houtside, ?_⟩
    intro other hother hassigns'
    simpa [hone] using (hsites other).2 ⟨hother, hassigns'⟩

end Tree

/-! ### What has been asked about -/

/-- **What the body mentions has been asked about**, if it is not declared there, and keeps its
value. -/
theorem Candidate.final_of_mentions {analyzer : Analyzer} {tree : Tree} {body : NodeId} {v : VarId}
    (hchecked : checkBody analyzer tree body = .ok ()) (hmentions : tree.Mentions v body)
    (hout : BodySummary.isDeclaredIn tree body v = .ok false) :
    analyzer.flow.isEffectivelyFinal tree v body = .ok true := by
  obtain ⟨summary, hsummary, hsafe⟩ := checkBody_eq_ok hchecked
  obtain ⟨-, hread, captured, hcaptured, hflatten⟩ := BodySummary.of_eq_ok hsummary
  -- the variable is among those that are read
  have hv : v ∈ summary.read := by
    obtain ⟨n, hn, hvar⟩ := hmentions
    obtain ⟨found, hfound, hread⟩ := bind_eq_ok.1 hread
    obtain ⟨here, hhere, hsub⟩ := Tree.look_subset hfound (Tree.mem_preorder_iff.2 hn)
    rw [hvar, pure_eq_ok, Except.ok.injEq] at hhere
    rw [← Except.ok.inj hread]
    exact (Ascending.mem_ofList _).2 (hsub (by simp [← hhere]))
  obtain ⟨here, hhere, hasked⟩ := exists_of_mapM_eq_ok hcaptured v hv
  rw [BodySummary.capture, hout, Attempt.liftM_ok, ok_bind] at hasked
  obtain ⟨final, hasked, hpair⟩ := bind_eq_ok.1 hasked
  have hmem : (v, final) ∈ summary.captured :=
    hflatten ▸ List.mem_flatten.2 ⟨here, hhere, by simp [← Except.ok.inj hpair]⟩
  rw [hasked, show final = true from BodySummary.captured_of_safe hsafe _ hmem]

/-- The answer does not depend on the bounds within which it has been found. -/
theorem Candidate.Found.final_of_mentions {analyzer : Analyzer} {tree : Tree} {loop : NodeId}
    {candidate : Candidate} {v : VarId} (h : Found analyzer tree loop candidate)
    (hmentions : tree.Mentions v candidate.body)
    (hout : BodySummary.isDeclaredIn tree candidate.body v = .ok false) :
    Flow.unbounded.isEffectivelyFinal tree v candidate.body = .ok true := by
  -- the exits have been found, which is not done once canceled
  have hnot : analyzer.flow.canceled = false := by
    by_contra hcanceled
    simpa [Flow.exits_of_canceled (Bool.not_eq_false _ ▸ hcanceled)] using h.exits_eq
  exact (hnot ▸ Flow.narrower_of_no_budget analyzer.flow).isEffectivelyFinal.eq_ok
    (Candidate.final_of_mentions h.body_checked hmentions hout)

/-! ### Reported loops -/

namespace Inspector

/-- **Captured variables are not assigned.** A variable that the body of a reported loop does not
declare, and that is not declared final, is not assigned in the body. If the body mentions it, it is
assigned nowhere else in the tree, with one exception: a local variable that is declared without an
initial value may be assigned at one place, outside of the body. -/
theorem unassigned_of_reported (inspector : Inspector) {tree : Tree} {loop body : NodeId}
    {param v : VarId} {iterated declaration : Option NodeId} {finding : Finding}
    {declared : Variable} (hwf : tree.WellFormed) (hattached : tree.isAttached loop = .ok true)
    (hloop : tree.forEach? loop = some ⟨param, iterated, some body⟩)
    (hreported : inspector.inspect tree loop = .ok finding)
    (hdeclared : tree.var v = .ok declared) (hfinal : declared.isFinal = false)
    (hdeclaration : tree.declarationOf? v = .ok declaration)
    (hout : ∀ d ∈ declaration, ¬ tree.Reaches body d) :
    (∀ site, tree.Reaches body site → ¬ tree.Assigns v site) ∧
      (tree.Mentions v body →
        (∀ site, tree.Attached site → ¬ tree.Assigns v site) ∨
          declared.kind = .localVariable ∧
          (∃ d ∈ declaration, tree.stmt? d = some (.declare v none)) ∧
          ∃ site, tree.Attached site ∧ tree.Assigns v site ∧ ¬ tree.Reaches body site ∧
            ∀ other, tree.Attached other → tree.Assigns v other → other = site) := by
  obtain ⟨candidate, -, hfound, -⟩ := inspect_eq_ok hreported
  obtain rfl : candidate.body = body := by
    have := hfound.forEach.symm.trans hloop
    simp_all
  have hlt := Tree.lt_size_of_kind? (Tree.forEach?_eq_some.1 hloop)
  -- the reported loop is the one whose body is given
  have hbody := Tree.attached_body ((hwf.isAttached_eq_true hlt).1 hattached) hloop
  have hdeclaredIn : BodySummary.isDeclaredIn tree candidate.body v = .ok false :=
    hwf.isDeclaredIn_eq_false hbody fun d hd =>
      hout d (Except.ok.inj (hdeclaration.symm.trans hd))
  have hmain := fun hmentions : tree.Mentions v candidate.body =>
    hwf.assigns_of_isEffectivelyFinal hbody hdeclared hfinal hdeclaration
      (hfound.final_of_mentions hmentions hdeclaredIn)
  refine ⟨fun site hsite hassigns => ?_, hmain⟩
  -- an assignment in the body would mention the variable there
  rcases hmain (hassigns.mentions.of_reaches hsite) with hnone | ⟨-, -, only, -, -, houtside, hone⟩
  · exact hnone site (hbody.reaches hsite) hassigns
  · exact houtside (hone site (hbody.reaches hsite) hassigns ▸ hsite)

end Inspector

/-- The loop `for (String x : xs) print(p);` after `String p;` and `p = ""`, as a tree. -/
def lateLoop : Tree where
  nodes := #[
    ⟨.expr (.name "xs" (some ⟨0⟩)), some ⟨4⟩, Tree.placeOf 0⟩,
    ⟨.expr (.name "p" (some ⟨2⟩)), some ⟨2⟩, Tree.placeOf 1⟩,
    ⟨.expr (.call ⟨none, "print", [⟨1⟩], some ⟨1⟩⟩), some ⟨3⟩, Tree.placeOf 2⟩,
    ⟨.stmt (.expr ⟨2⟩), some ⟨4⟩, Tree.placeOf 3⟩,
    ⟨.stmt (.forEach ⟨⟨1⟩, some ⟨0⟩, some ⟨3⟩⟩), some ⟨10⟩, Tree.placeOf 4⟩,
    ⟨.stmt (.declare ⟨2⟩ none), some ⟨10⟩, Tree.placeOf 5⟩,
    ⟨.expr (.name "p" (some ⟨2⟩)), some ⟨8⟩, Tree.placeOf 6⟩,
    ⟨.expr (.literal (.str "")), some ⟨8⟩, Tree.placeOf 7⟩,
    ⟨.expr (.assign none ⟨6⟩ ⟨7⟩), some ⟨9⟩, Tree.placeOf 8⟩,
    ⟨.stmt (.expr ⟨8⟩), some ⟨10⟩, Tree.placeOf 9⟩,
    ⟨.stmt (.block [⟨5⟩, ⟨9⟩, ⟨4⟩]), none, Tree.placeOf 10⟩]
  vars := #[⟨"xs", .simple "List", .parameter, false⟩,
    ⟨"x", .simple "String", .loopParameter, false⟩, ⟨"p", .simple "String", .localVariable, false⟩]
  root := ⟨10⟩
  scope := .unknown
  revision := 0

/-- The one assignment of a local variable that a reported loop captures is in front of the loop. -/
theorem assigns_lateLoop :
    lateLoop.Assigns ⟨2⟩ ⟨8⟩ ∧
      ∀ site, lateLoop.Attached site → lateLoop.Assigns ⟨2⟩ site → site = ⟨8⟩ := by
  have hwf : lateLoop.WellFormed := .of_isInOrder (by decide)
  -- the loop is reported, and `p` is declared outside of its body, at the third statement
  obtain ⟨finding, hreported⟩ :
      ∃ finding, (Inspector.knowing []).inspect lateLoop ⟨4⟩ = .ok finding :=
    ⟨_, by cbv⟩
  have hassigns : lateLoop.Assigns ⟨2⟩ ⟨8⟩ := .assign rfl (.name rfl)
  have hattached : lateLoop.Attached ⟨8⟩ :=
    (Tree.Reaches.of_mem (show (⟨9⟩ : NodeId) ∈ _ by decide)).trans (.of_mem (by decide))
  have hdeclaration : lateLoop.declarationOf? ⟨2⟩ = .ok (some ⟨5⟩) := by cbv
  obtain ⟨-, helsewhere⟩ := Inspector.unassigned_of_reported (Inspector.knowing []) hwf (by cbv)
    (show lateLoop.forEach? ⟨4⟩ = some ⟨⟨1⟩, some ⟨0⟩, some ⟨3⟩⟩ from rfl) hreported
    (show lateLoop.var ⟨2⟩ = .ok ⟨"p", .simple "String", .localVariable, false⟩ from rfl) rfl
    hdeclaration (fun d hd hreaches => by
      obtain rfl := Option.some.inj hd
      exact absurd (Tree.mem_preorder_iff.2 hreaches) (by decide))
  refine ⟨hassigns, fun site hsite hsite' => ?_⟩
  rcases helsewhere ⟨⟨1⟩, Tree.mem_preorder_iff.1 (by decide), rfl⟩ with
    hnone | ⟨-, -, only, -, -, -, hone⟩
  · -- the call in the body refers to `p`, so that it is assigned once at most
    exact absurd hassigns (hnone _ hattached)
  · rw [hone site hsite hsite', hone _ hattached hassigns]

end LoopToStream
