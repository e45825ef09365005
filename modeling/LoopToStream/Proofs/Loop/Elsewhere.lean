import LoopToStream.Proofs.Loop.Answering
import LoopToStream.Proofs.Tree.Around

/-!
# Changes elsewhere

A loop that a change elsewhere leaves alone (`Tree.Undisturbed`) looks the same afterwards: it is a
candidate as it was, or is turned down for the same reason (`Undisturbed.candidate_eq`), and the
report on it differs in the revision at most. This holds if variables are found to be as final as
before. For flow queries with bounds, that is something to be shown: what is given up elsewhere may
be what has kept a query from finishing.

There is one lemma for each question that is asked about the loop, in the order in which they are
asked.
-/

namespace LoopToStream

open Attempt (Answered)

variable {tree next : Tree} {hidden v : VarId} {loop body n action : NodeId} {analyzer : Analyzer}

/-! ### The guards -/

namespace Tree.SameBelow

variable {a : NodeId} (h : tree.SameBelow next a)
include h

theorem onlyStatement?_eq : next.onlyStatement? a = tree.onlyStatement? a := by
  rw [onlyStatement?, onlyStatement?, h.stmt?_eq]
  cases hblock : (tree.stmt? a).bind Stmt.block? with
  | none => rfl
  | some stmts =>
    obtain ⟨s, hs, hstmts⟩ := Option.bind_eq_some_iff.1 hblock
    have hparts := parts_eq_children (stmt?_eq_some.1 hs)
    -- which of the statements are comments is read off the statements themselves
    have hamong : next.statementsAmong stmts = tree.statementsAmong stmts := by
      refine List.filter_congr fun c hc => ?_
      cases s <;> simp [Stmt.block?] at hstmts
      subst hstmts
      rw [(h.of_reaches (.of_mem (hparts ▸ hc))).stmt?_eq]
    simp only [hamong]

theorem guard?_eq : GuardChain.guard? next a = GuardChain.guard? tree a := by
  unfold GuardChain.guard?
  rw [h.stmt?_eq]

/-- **The guards of the code and its action.** By induction on the code. -/
theorem guardChain_eq (hg : tree.Grounded a) : GuardChain.of next a = GuardChain.of tree a := by
  induction hg with
  | @layer a kind here below ih =>
    have hg : tree.Grounded a := .layer here below
    have hg' := h.grounded hg
    have hparts := parts_eq_children here
    have hih : ∀ c ∈ tree.parts a, GuardChain.of next c = GuardChain.of tree c := fun c hc =>
      ih c (hparts ▸ hc) (h.of_reaches (.of_mem hc))
    rw [GuardChain.of, GuardChain.of, hg.unwrapSingleBlock_eq, hg'.unwrapSingleBlock_eq,
      h.onlyStatement?_eq]
    -- a block of one statement is left for it, which is a part
    cases honly : tree.onlyStatement? a with
    | some inner => exact hih inner (mem_parts_of_onlyStatement? honly)
    | none =>
      dsimp only
      rw [hg.chain_eq, hg'.chain_eq, h.guard?_eq]
      -- what is guarded is a part as well
      cases hguard : GuardChain.guard? tree a with
      | none => rfl
      | some found =>
        obtain ⟨cond, branch⟩ := found
        dsimp only
        rw [hih branch (by simp [parts_of_guard? hguard])]

end Tree.SameBelow

namespace Tree.Undisturbed

variable (h : tree.Undisturbed next hidden loop)
include h

/-! ### Types and methods -/

theorem resolve?_eq (symbols : Symbols) (hn : tree.Reaches loop n) :
    symbols.resolve? next n = symbols.resolve? tree n := by
  rw [Symbols.resolve?, Symbols.resolve?, (h.sameBelow hn).expr?_eq]

theorem isCollection_eq (symbols : Symbols) (hn : tree.Reaches loop n) :
    symbols.isCollection next n = symbols.isCollection tree n := by
  have hskip := tree.reaches_skipParens n
  have hvar : next.var = tree.var := funext h.var_eq
  rw [Symbols.isCollection, Symbols.isCollection, Symbols.typeOf?, Symbols.typeOf?]
  simp only [(h.sameBelow hn).skipParens_eq (h.grounded hn),
    (h.sameBelow (hn.trans hskip)).expr?_eq, h.resolve?_eq symbols (hn.trans hskip), hvar,
    h.scope_eq]

theorem partsOf_eq :
    Candidate.partsOf analyzer next loop = Candidate.partsOf analyzer tree loop := by
  -- the class of the source is found from what is written below the loop
  have hcollection : ∀ source ∈ tree.parts loop, analyzer.symbols.isCollection next source =
      analyzer.symbols.isCollection tree source := fun source hsource =>
    h.isCollection_eq analyzer.symbols (.of_mem hsource)
  rw [Candidate.partsOf, Candidate.partsOf, h.same.forEach?_eq, h.scope_eq]
  cases hloop : tree.forEach? loop with
  | none => rfl
  | some found =>
    obtain ⟨var, iterated, inner⟩ := found
    have hparts := parts_eq_children (forEach?_eq_some.1 hloop)
    cases iterated with
    | none => rfl
    | some source =>
      cases inner with
      | none => rfl
      | some inner =>
        simp only [hcollection source (by simp [hparts, Kind.children, Stmt.children])]

/-! ### Flow queries -/

theorem isJumpTarget_eq (label : Option String) (hn : tree.Reaches loop n) :
    Flow.isJumpTarget next label n = Flow.isJumpTarget tree label n := by
  unfold Flow.isJumpTarget
  rw [(h.sameBelow hn).stmt?_eq]

/-- **The target of a jump in the loop** is found as before: a jump without a label goes to the loop
at the furthest, and labels are where they were. -/
theorem staysInside_eq (hloop : (tree.forEach? loop).isSome) (label : Option String)
    (hn : tree.StrictlyReaches loop n) :
    Flow.staysInside next body label n = Flow.staysInside tree body label n := by
  have hbelow : ∀ p, tree.Reaches loop p →
      (if Flow.isJumpTarget next label p then some true else if p = body then some false
        else none) =
        if Flow.isJumpTarget tree label p then some true else if p = body then some false
            else none :=
    fun p hp => by rw [h.isJumpTarget_eq label hp]
  rw [Flow.staysInside, Flow.staysInside]
  cases label with
  | none =>
    rw [h.climb_eq_inside (.refl loop) hn fun c p hp _ => hbelow p hp]
    -- above the loop nothing is asked any more: without a label the loop itself is a target
    intro c _
    obtain ⟨found, hfound⟩ := Option.isSome_iff_exists.1 hloop
    have htarget : Flow.isJumpTarget tree none loop = true := by
      simp [Flow.isJumpTarget, stmt?_eq_some.2 (forEach?_eq_some.1 hfound), Stmt.isLoop]
    rw [if_pos htarget]
    rfl
  | some label =>
    rw [h.climb_eq hn.reaches fun c p hattached hp => ?_]
    rcases hp with hp | hp
    · rw [h.labels p label hattached hp]
    · exact hbelow p hp

theorem exits_eq (flow : Flow) (hloop : (tree.forEach? loop).isSome)
    (hbody : tree.StrictlyReaches loop body) : flow.exits next body = flow.exits tree body := by
  have hsame := h.sameBelow hbody.reaches
  have hwhere : next.preorderWhere (fun node => !next.isClosure node) body =
      tree.preorderWhere (fun node => !tree.isClosure node) body :=
    hsame.preorderWhere_eq (h.grounded hbody.reaches) h.size_le fun m hm => by
      rw [(hsame.of_reaches hm).isClosure_eq]
  have hall := h.before.descendantsWhere_eq (fun node => !tree.isClosure node)
    (h.was_attached.reaches hbody.reaches)
  rw [Flow.exits, Flow.exits, Flow.queryOutsideClosures, Flow.queryOutsideClosures, hwhere]
  -- the nodes visited are the same, so only what is asked at each of them is left
  refine Flow.look_congr 0 (fun id hid => ?_) fun id hid => ?_
  · have hlt := h.before.lt_size (hall.2 id hid)
    exact ⟨hlt, hlt.trans_le h.size_le⟩
  · have hreach := reaches_of_mem_preorderWhere hid
    have hstrict : tree.StrictlyReaches loop id := Relation.TransGen.trans_left hbody hreach
    rw [Flow.exitAt, Flow.exitAt, (hsame.of_reaches hreach).stmt?_eq]
    simp only [h.staysInside_eq hloop _ hstrict]

/-- A query that looks at each node on its own. -/
theorem query_eq {α : Type} (flow : Flow) (hbody : tree.Reaches loop body)
    {see see' : NodeId → Lookup (List α)} (hsee : ∀ n, tree.Reaches body n → see' n = see n) :
    flow.query next see' body = flow.query tree see body := by
  rw [Flow.query, Flow.query, (h.sameBelow hbody).preorder_eq (h.grounded hbody)]
  refine Flow.look_congr 0 (fun id hid => ?_) fun id hid => hsee id (mem_preorder_iff.1 hid)
  have hlt := h.lt_size (hbody.trans (mem_preorder_iff.1 hid))
  exact ⟨hlt, hlt.trans_le h.size_le⟩

theorem used_eq (flow : Flow) (hbody : tree.Reaches loop body) :
    flow.used next body = flow.used tree body := by
  rw [Flow.used, Flow.used, h.query_eq flow hbody fun n hn => ?_]
  rw [(h.sameBelow (hbody.trans hn)).expr?_eq]

theorem writtenAt?_eq (hn : tree.Reaches loop n) :
    Flow.writtenAt? next n = Flow.writtenAt? tree n := by
  rw [Flow.writtenAt?, Flow.writtenAt?, (h.sameBelow hn).expr?_eq]

theorem writes_eq (flow : Flow) (hbody : tree.Reaches loop body) :
    flow.writes next body = flow.writes tree body := by
  rw [Flow.writes, Flow.writes, h.query_eq flow hbody fun n hn => ?_]
  have hreach := hbody.trans hn
  rw [h.writtenAt?_eq hreach]
  cases hwritten : Flow.writtenAt? tree n with
  | none => rfl
  | some target =>
    obtain ⟨e, hkind, hmem, -⟩ := (writtenAt?_eq_some.1 hwritten).exists_expr
    have hpart : target ∈ tree.parts n := parts_eq_children hkind ▸ hmem
    have htarget := hreach.tail hpart
    simp only [Option.bind_some, (h.sameBelow htarget).variableAt?_eq (h.grounded htarget)]

theorem written_eq (flow : Flow) (hbody : tree.Reaches loop body) :
    flow.written next body = flow.written tree body := by
  rw [Flow.written, Flow.written, h.writes_eq flow hbody]

omit h in
/-- **Where the whole tree is left alone**, variables are as final as before, also where the query
is bounded: it visits the same nodes. -/
theorem sameFinality_of_root (h : tree.Undisturbed next hidden tree.root)
    (hroot : next.root = tree.root)
    (flow : Flow) : tree.SameFinality next flow hidden tree.root := by
  intro v n hv hn
  have hknown := h.before.writes_answered flow attached_root
  rw [Flow.isEffectivelyFinal, Flow.isEffectivelyFinal, h.var_eq, hroot, h.writes_eq flow (.refl _),
    (h.declarations v hv).2]
  refine bind_congr_of_ok fun declared _ => ?_
  split
  · rfl
  refine bind_congr_of_ok fun writes hwrites => ?_
  rw [hwrites] at hknown
  dsimp only
  split
  · refine bind_congr_of_ok fun initial _ => ?_
    split
    · rfl
    · split
      · rfl
      · next site hsite =>
        -- a site is where some write is
        have hmem : site ∈ (writes.filter fun write => write.2 = v).map Prod.fst := by simp [hsite]
        obtain ⟨write, hwrite, rfl⟩ := List.mem_map.1 hmem
        rw [h.isAncestor_eq hn (hknown write (List.mem_filter.1 hwrite).1)]
      · rfl
    · rfl
  · rfl

/-! ### The summary of the body -/

theorem isDeclaredIn_eq (hbody : tree.Reaches loop body) (hv : v ≠ hidden) :
    BodySummary.isDeclaredIn next body v = BodySummary.isDeclaredIn tree body v := by
  obtain ⟨declaration, hdeclaration, hknown⟩ := h.before.exists_declarationOf? v
  rw [BodySummary.isDeclaredIn, BodySummary.isDeclaredIn, (h.declarations v hv).1, hdeclaration]
  cases declaration with
  | none => rfl
  | some declaration => exact h.isAncestor_eq hbody (hknown declaration rfl)

theorem capture_eq (hfinal : tree.SameFinality next analyzer.flow hidden loop)
    (hbody : tree.Reaches loop body) (hv : v ≠ hidden) :
    BodySummary.capture analyzer next body v = BodySummary.capture analyzer tree body v := by
  rw [BodySummary.capture, BodySummary.capture, h.isDeclaredIn_eq hbody hv,
    hfinal v body hv hbody]

theorem escaping_eq (hbody : tree.Reaches loop body) (hn : tree.StrictlyReaches body n) :
    BodySummary.escaping analyzer next body n = BodySummary.escaping analyzer tree body n := by
  -- handlers are looked for up to the body, and so within what is the same
  have hcaught : ∀ name, BodySummary.isCaughtWithin analyzer next body name n =
      BodySummary.isCaughtWithin analyzer tree body name n := by
    intro name
    rw [BodySummary.isCaughtWithin, BodySummary.isCaughtWithin,
      h.climb_eq_inside hbody hn fun c p hp _ => ?_]
    · intro c _
      split <;> simp
    · rw [BodySummary.catches, BodySummary.catches, (h.sameBelow (hbody.trans hp)).stmt?_eq]
  rw [BodySummary.escaping, BodySummary.escaping, h.resolve?_eq _ (hbody.trans hn.reaches)]
  simp only [hcaught]

theorem callsIn_eq (hbody : tree.Reaches loop body) :
    BodySummary.callsIn next body = BodySummary.callsIn tree body := by
  have hwhere : next.preorderWhere (fun node => !next.isClosure node) body =
      tree.preorderWhere (fun node => !tree.isClosure node) body :=
    (h.sameBelow hbody).preorderWhere_eq (h.grounded hbody) h.size_le fun m hm => by
      rw [(h.sameBelow (hbody.trans hm)).isClosure_eq]
  rw [BodySummary.callsIn_eq h.before (h.was_attached.reaches hbody),
    BodySummary.callsIn_eq h.after (h.attached_of_reaches hbody), hwhere]
  refine congrArg Except.ok (List.filter_congr fun id hid => ?_)
  rw [(h.sameBelow (hbody.trans (reaches_of_mem_preorderWhere hid))).expr?_eq]

/-- **The summary of the body** is the same. -/
theorem summary_eq (hfinal : tree.SameFinality next analyzer.flow hidden loop)
    (hloop : (tree.forEach? loop).isSome) (hbody : tree.StrictlyReaches loop body)
    (hstmt : tree.Holds .statement body) :
    BodySummary.of analyzer next body = BodySummary.of analyzer tree body := by
  have hattached := h.was_attached.reaches hbody.reaches
  obtain ⟨calls, hcalls, hbelow⟩ := BodySummary.exists_callsIn h.before hattached
  rw [BodySummary.of, BodySummary.of, h.exits_eq _ hloop hbody, h.used_eq _ hbody.reaches,
    h.written_eq _ hbody.reaches, h.callsIn_eq hbody.reaches, hcalls]
  refine bind_congr_of_ok fun exits _ => bind_congr_of_ok fun read hread => ?_
  -- a variable that is captured is mentioned below the body
  have hcaptured : read.mapM (BodySummary.capture analyzer next body) =
      read.mapM (BodySummary.capture analyzer tree body) := by
    have hused := h.before.used_answered analyzer.flow hattached
    rw [hread] at hused
    refine mapM_congr_of_mem fun v hv => ?_
    obtain ⟨n, hn, hvar⟩ := hused v hv
    exact h.capture_eq hfinal hbody.reaches (h.ne_hidden (hbody.reaches.trans hn) hvar)
  -- an exception is caught where it was: the climb from a call ends at the body
  have hchecked : calls.mapM (fun id => (liftM (BodySummary.escaping analyzer next body id) :
      Attempt AnalysisError (List String))) =
        calls.mapM fun id => liftM (BodySummary.escaping analyzer tree body id) := by
    refine mapM_congr_of_mem fun call hcall => ?_
    obtain ⟨hreach, hlike⟩ := hbelow call hcall
    -- the body is a statement, and so none of its calls
    have hne : call ≠ body := by
      rintro rfl
      obtain ⟨kind, hkind, hadmits⟩ := hstmt
      cases kind <;> simp_all [expr?, Kind.expr?, Slot.admits]
    have hstrict := (reaches_iff_eq_or_strictly.1 hreach).resolve_left hne
    rw [h.escaping_eq hbody.reaches hstrict]
  have hunresolved : calls.filter (fun id => (analyzer.symbols.resolve? next id).isNone) =
      calls.filter fun id => (analyzer.symbols.resolve? tree id).isNone :=
    List.filter_congr fun call hcall => by
      rw [h.resolve?_eq _ (hbody.reaches.trans (hbelow call hcall).1)]
  rw [hcaptured]
  refine bind_congr_of_ok fun written _ => bind_congr_of_ok fun captured _ => ?_
  rw [Attempt.liftM_ok, ok_bind, ok_bind, hchecked, hunresolved]

theorem verdict_eq {summary : BodySummary}
    (hunresolved : ∀ call ∈ summary.unresolved, tree.Reaches loop call) :
    summary.verdict next = summary.verdict tree := by
  have hvar : next.var = tree.var := funext h.var_eq
  rw [BodySummary.verdict, BodySummary.verdict, hvar]
  split
  · rfl
  · split
    · rfl
    · split
      · rfl
      · -- a call that is not known is shown to the user by its text
        next call rest hchecked hcalls =>
        have hcall := hunresolved call (by simp [hcalls])
        rw [(h.sameBelow hcall).text_eq (h.grounded hcall) h.vars_eq]
      · rfl

theorem checkBody_eq (hfinal : tree.SameFinality next analyzer.flow hidden loop)
    (hloop : (tree.forEach? loop).isSome) (hbody : tree.StrictlyReaches loop body)
    (hstmt : tree.Holds .statement body) :
    Candidate.checkBody analyzer next body = Candidate.checkBody analyzer tree body := by
  have hsummary := BodySummary.of_answered analyzer h.before (h.was_attached.reaches hbody.reaches)
  rw [Candidate.checkBody, Candidate.checkBody, h.summary_eq hfinal hloop hbody hstmt]
  refine bind_congr_of_ok fun summary hof => ?_
  rw [Attempt.mapReason_eq_ok.1 hof] at hsummary
  rw [h.verdict_eq fun call hcall => hbody.reaches.trans (hsummary.2 call hcall)]

/-! ### The action -/

theorem declaredOutside_eq {up : NodeId} (hup : tree.Reaches loop up) (hv : v ≠ hidden) :
    Accumulation.declaredOutside next (some up) v =
      Accumulation.declaredOutside tree (some up) v := by
  obtain ⟨declaration, hdeclaration, hknown⟩ := h.before.exists_declarationOf? v
  rw [Accumulation.declaredOutside, Accumulation.declaredOutside, h.var_eq, (h.declarations v hv).1,
    hdeclaration]
  refine bind_congr_of_ok fun declared _ => ?_
  cases declaration with
  | none => rfl
  | some declaration => simp only [ok_bind, h.isAncestor_eq hup (hknown declaration rfl)]

/-- Whether an expression means the same object each time. By induction on the fields of fields that
are looked through. -/
theorem staysSameWithin_eq {up : NodeId} (hup : tree.Reaches loop up) (fuel : Nat)
    (hn : tree.Reaches loop n) :
    Accumulation.staysSameWithin next (some up) fuel n =
      Accumulation.staysSameWithin tree (some up) fuel n := by
  induction fuel generalizing n with
  | zero => rfl
  | succ fuel ih =>
    -- the check sees what is in the parentheses
    have hskip := hn.trans (tree.reaches_skipParens n)
    rw [Accumulation.staysSameWithin, Accumulation.staysSameWithin,
      (h.sameBelow hn).skipParens_eq (h.grounded hn), (h.sameBelow hn).expr?_skipParens_eq]
    split
    · rfl
    · rfl
    · rfl
    · next v he => exact h.declaredOutside_eq hup (h.ne_hidden hskip (by rw [he]; rfl))
    · -- the owner is a part of the field, so it hangs in the loop as well
      next owner name v he =>
      have howner : owner ∈ tree.parts (tree.skipParens n) := by
        simp [parts_eq_children (expr?_eq_some.1 he), Kind.children, Expr.children]
      rw [h.declaredOutside_eq hup (h.ne_hidden hskip (v := v) (by rw [he]; rfl)),
        ih (hskip.tail howner)]
    · rfl
    · rfl
    · rfl

/-- As many fields of fields are looked through as there are. -/
theorem staysSame_eq {up : NodeId} (hup : tree.Reaches loop up) (hn : tree.Reaches loop n) :
    Accumulation.staysSame next (some up) n = Accumulation.staysSame tree (some up) n := by
  have hweight : tree.weight n ≤ tree.size := weight_le
  have hsize := h.size_le
  rw [Accumulation.staysSame, Accumulation.staysSame, h.staysSameWithin_eq hup _ hn]
  -- the bounds differ with the sizes, and both are beyond what is left of the tree
  refine (h.grounded hn).steps_irrelevant (f := Accumulation.staysSameWithin tree (some up))
    (fun i j x hx => ?_) (by rw [pathBound]; omega) (by rw [pathBound]; omega)
  rw [Accumulation.staysSameWithin, Accumulation.staysSameWithin]
  split
  · rfl
  · rfl
  · rfl
  · rfl
  · next owner name v he =>
    have howner : owner ∈ tree.parts (tree.skipParens x) := by
      simp [parts_eq_children (expr?_eq_some.1 he), Kind.children, Expr.children]
    rw [hx owner (strictlyReaches_iff_last.2 ⟨_, tree.reaches_skipParens x, howner⟩)]
  · rfl
  · rfl
  · rfl

omit h in
/-- **What is in a loop has a loop around it** that is this one or one in it. By induction along the
way down from the loop. -/
theorem exists_enclosingForEach? (hwf : tree.WellFormed) (hattached : tree.Attached loop)
    (hloop : (tree.forEach? loop).isSome) (hn : tree.StrictlyReaches loop n) :
    ∃ up, tree.enclosingForEach? n = .ok (some up) ∧ tree.Reaches loop up := by
  have hstep : ∀ p c, tree.Reaches loop p → c ∈ tree.parts p →
      ((tree.forEach? p).isSome = false → ∃ up, tree.enclosingForEach? p = .ok (some up) ∧
        tree.Reaches loop up) →
      ∃ up, tree.enclosingForEach? c = .ok (some up) ∧ tree.Reaches loop up := by
    intro p c hp hc ih
    rw [enclosingForEach?, hwf.climb_part (hattached.reaches hp) hc]
    cases hhere : (tree.forEach? p).isSome with
    | true => exact ⟨p, rfl, hp⟩
    | false => exact ih hhere
  induction hn with
  | single hc => exact hstep loop _ (.refl loop) hc fun hno => by simp [hno] at hloop
  | tail hp hc ih => exact hstep _ _ (StrictlyReaches.reaches hp) hc fun _ => ih

theorem enclosingForEach?_eq (hloop : (tree.forEach? loop).isSome)
    (hn : tree.StrictlyReaches loop n) :
    next.enclosingForEach? n = tree.enclosingForEach? n := by
  refine h.climb_eq_inside (.refl loop) hn (fun c p hp _ => ?_) fun c _ => ?_
  · rw [(h.sameBelow hp).forEach?_eq]
  · rw [if_pos hloop]
    rfl

theorem targetOf_eq (hloop : (tree.forEach? loop).isSome)
    (haction : tree.StrictlyReaches loop action) {receiver : Option NodeId}
    (hreceiver : ∀ q ∈ receiver, tree.Reaches loop q) :
    Accumulation.targetOf next action receiver = Accumulation.targetOf tree action receiver := by
  have hvar : next.var = tree.var := funext h.var_eq
  cases receiver with
  | none => rw [Accumulation.targetOf, Accumulation.targetOf, h.scope_eq]
  | some q =>
    have hq := hreceiver q rfl
    obtain ⟨up, hup, hreach⟩ := exists_enclosingForEach? h.before h.was_attached hloop haction
    rw [Accumulation.targetOf, Accumulation.targetOf,
      (h.sameBelow hq).variableAt?_eq (h.grounded hq), h.enclosingForEach?_eq hloop haction, hup]
    simp only [Attempt.liftM_ok, ok_bind, h.staysSame_eq hreach hq, hvar]

theorem isReceiverRef_eq (hn : tree.Reaches loop n) :
    Target.isReceiverRef next n = Target.isReceiverRef tree n := by
  unfold Target.isReceiverRef
  rw [(h.sameBelow hn).expr?_eq]

theorem readsReceiver_eq (hn : tree.StrictlyReaches loop n) :
    Target.readsReceiver next n = Target.readsReceiver tree n := by
  have hlt := h.lt_size hn.reaches
  obtain ⟨p, hp, hpn⟩ := strictlyReaches_iff_last.1 hn
  -- below the loop the parent is the one that it was
  have hparent := h.before.parent?_of_mem (h.was_attached.reaches hp) hpn
  rw [Target.readsReceiver, Target.readsReceiver, (h.sameBelow hn.reaches).expr?_eq,
    parent_of_lt hlt, parent_of_lt (hlt.trans_le h.size_le),
    h.parent?_eq (h.was_attached.reaches hn.reaches) (.inr hn.reaches), hparent]
  cases he : tree.expr? n with
  | none => rfl
  | some e =>
    cases e with
    | call c =>
      obtain ⟨receiver, method, args, target⟩ := c
      cases receiver with
      | none => rfl
      | some q =>
        -- the receiver of a call is one of its parts
        have hq : q ∈ tree.parts n := by
          simp [parts_eq_children (expr?_eq_some.1 he), Kind.children, Expr.children]
        simp [h.isReceiverRef_eq (hn.reaches.tail hq)]
    | thisRef => simp only [ok_bind, (h.sameBelow hp).expr?_eq]
    | _ => rfl

theorem isObservedBy_eq (target : Target) (hn : tree.StrictlyReaches loop n) :
    target.isObservedBy next n = target.isObservedBy tree n := by
  have hattached := h.was_attached.reaches hn.reaches
  -- a variable is looked for by its references, the object itself by calls on it
  match target with
  | .variable var =>
    rw [Target.isObservedBy, Target.isObservedBy, referencesIn, referencesIn,
      h.descendants_eq hn.reaches, h.before.descendants_eq hattached, ok_bind, ok_bind,
      List.filter_congr fun m hm => by
        rw [(h.sameBelow (hn.reaches.trans (mem_preorder_iff.1 hm))).expr?_eq]]
  | .implicitReceiver =>
    -- a lambda is left out before and after alike
    have hwhere : next.descendantsWhere (fun id => !Target.isLambda next id) n =
        tree.descendantsWhere (fun id => !Target.isLambda tree id) n :=
      h.descendantsWhere_eq hn.reaches fun m hm => by
        unfold Target.isLambda
        rw [(h.sameBelow (hn.reaches.trans hm)).expr?_eq]
    rw [Target.isObservedBy, Target.isObservedBy, hwhere,
      (h.before.descendantsWhere_eq _ hattached).1]
    refine anyM_congr_of_mem fun m hm => h.readsReceiver_eq ?_
    exact Relation.TransGen.trans_left hn (reaches_of_mem_preorderWhere hm)

theorem checkValue_eq (hn : tree.Reaches loop n) :
    Accumulation.checkValue analyzer next n = Accumulation.checkValue analyzer tree n := by
  rw [Accumulation.checkValue, Accumulation.checkValue, (h.sameBelow hn).expr?_eq,
    h.resolve?_eq _ hn, (h.sameBelow hn).text_eq (h.grounded hn) h.vars_eq]

theorem addCall?_eq (hn : tree.Reaches loop n) :
    Accumulation.addCall? next n = Accumulation.addCall? tree n := by
  rw [Accumulation.addCall?, Accumulation.addCall?, (h.sameBelow hn).stmt?_eq]
  cases hstmt : tree.stmt? n with
  | none => rfl
  | some s =>
    cases s with
    | expr value =>
      have hvalue := hn.tail (c := value) (by
        simp [parts_eq_children (stmt?_eq_some.1 hstmt), Kind.children, Stmt.children])
      simp only [(h.sameBelow hvalue).skipParens_eq (h.grounded hvalue),
        (h.sameBelow (hvalue.trans (tree.reaches_skipParens value))).call?_eq]
    | _ => rfl

/-- **Whether the action adds to a collection** is the same. -/
theorem accumulation_eq (hloop : (tree.forEach? loop).isSome) {chain : GuardChain}
    (haction : tree.StrictlyReaches loop chain.action)
    (hconds : ∀ cond ∈ chain.conditions, tree.StrictlyReaches loop cond) :
    Accumulation.of analyzer next chain = Accumulation.of analyzer tree chain := by
  rw [Accumulation.of, Accumulation.of, h.addCall?_eq haction.reaches]
  cases hadd : Accumulation.addCall? tree chain.action with
  | none => rfl
  | some found =>
    obtain ⟨id, call, value⟩ := found
    obtain ⟨outer, houter, hid, hcall, -, hargs⟩ := Accumulation.addCall?_eq_some hadd
    have hparts := parts_eq_children (call?_eq_some.1 hcall)
    -- the call is found from the action through parentheses
    have hreach : tree.Reaches loop id := by
      rw [hid]
      refine (haction.reaches.tail (c := outer) ?_).trans (tree.reaches_skipParens outer)
      simp [parts_eq_children (stmt?_eq_some.1 houter), Kind.children, Stmt.children]
    have hvalue := hreach.tail (c := value) (by simp [hparts, Kind.children, Expr.children, hargs])
    have hreceiver : ∀ q ∈ call.receiver, tree.Reaches loop q := fun q hq =>
      hreach.tail (by simp [hparts, Kind.children, Expr.children, Option.mem_def.1 hq])
    -- and the guards notice what they noticed
    have hobserved : ∀ target : Target, chain.conditions.anyM (target.isObservedBy next) =
        chain.conditions.anyM (target.isObservedBy tree) := fun target =>
      anyM_congr_of_mem fun cond hcond => h.isObservedBy_eq target (hconds cond hcond)
    simp only [h.resolve?_eq _ hreach, (h.sameBelow hreach).text_eq (h.grounded hreach) h.vars_eq,
      h.targetOf_eq hloop haction hreceiver, hobserved, h.checkValue_eq hvalue]

/-- What is done with each element is the same. -/
theorem action_eq (hloop : (tree.forEach? loop).isSome) {chain : GuardChain}
    (haction : tree.StrictlyReaches loop chain.action)
    (hconds : ∀ cond ∈ chain.conditions, tree.StrictlyReaches loop cond) :
    LoopAction.of analyzer next chain = LoopAction.of analyzer tree chain := by
  rw [LoopAction.of, LoopAction.of, h.accumulation_eq hloop haction hconds]

/-! ### Method references -/

theorem isParam_eq (param : VarId) (hn : tree.Reaches loop n) :
    Forwarding.isParam next param n = Forwarding.isParam tree param n := by
  unfold Forwarding.isParam
  rw [(h.sameBelow hn).skipParens_eq (h.grounded hn), (h.sameBelow hn).expr?_skipParens_eq]

omit h in
theorem keepsValue_eq (hfinal : tree.SameFinality next analyzer.flow hidden loop) (param : VarId)
    (hn : tree.Reaches loop n) (hv : v ≠ hidden) :
    Forwarding.keepsValue analyzer next param n v =
      Forwarding.keepsValue analyzer tree param n v := by
  rw [Forwarding.keepsValue, Forwarding.keepsValue, hfinal v n hv hn]

theorem boundQualifier?_eq (hfinal : tree.SameFinality next analyzer.flow hidden loop)
    (param : VarId) (isStatic : Bool) (hn : tree.Reaches loop n) :
    Forwarding.boundQualifier? analyzer next param isStatic n =
      Forwarding.boundQualifier? analyzer tree param isStatic n := by
  rw [Forwarding.boundQualifier?, Forwarding.boundQualifier?, (h.sameBelow hn).expr?_eq]
  split
  · rfl
  · rfl
  · rfl
  · -- only of variables is it asked whether they keep their value, and what is hidden is none of
    -- them
    next v he =>
    rw [keepsValue_eq hfinal param hn (h.ne_hidden hn (v := v) (by rw [he]; rfl))]
  · next owner name v he =>
    have howner : owner ∈ tree.parts n := by
      simp [parts_eq_children (expr?_eq_some.1 he), Kind.children, Expr.children]
    rw [keepsValue_eq hfinal param hn (h.ne_hidden hn (v := v) (by rw [he]; rfl)),
      (h.sameBelow (hn.tail howner)).expr?_eq]
  · rfl

theorem callQualifier?_eq (hfinal : tree.SameFinality next analyzer.flow hidden loop)
    (param : VarId) (signature : Signature) {c : Call NodeId}
    (hargs : ∀ arg ∈ c.args, tree.Reaches loop arg)
    (hreceiver : ∀ q ∈ c.receiver, tree.Reaches loop q) :
    Forwarding.callQualifier? analyzer next param signature c =
      Forwarding.callQualifier? analyzer tree param signature c := by
  have hvar : next.var = tree.var := funext h.var_eq
  obtain ⟨receiver, method, args, target⟩ := c
  unfold Forwarding.callQualifier?
  dsimp only
  split
  · rw [h.isParam_eq param (hargs _ (by simp)), h.scope_eq]
  · rw [h.isParam_eq param (hargs _ (by simp)), h.boundQualifier?_eq hfinal _ _ (hreceiver _ rfl)]
  · rw [h.isParam_eq param (hreceiver _ rfl), hvar]
  · rfl

/-- **Whether a function literal could be a method reference** is the same. -/
theorem reduce?_eq (hfinal : tree.SameFinality next analyzer.flow hidden loop) (param : VarId)
    (hn : tree.Reaches loop n) :
    Forwarding.reduce? analyzer next param n = Forwarding.reduce? analyzer tree param n := by
  have hskip := hn.trans (tree.reaches_skipParens n)
  have hpart : ∀ c ∈ tree.parts (tree.skipParens n), tree.Reaches loop c :=
    fun c hc => hskip.tail hc
  rw [Forwarding.reduce?, Forwarding.reduce?]
  simp only [(h.sameBelow hn).skipParens_eq (h.grounded hn), h.resolve?_eq _ hskip,
    (h.sameBelow hn).expr?_skipParens_eq]
  split
  · split
    · -- the qualifier of a call is its receiver or the class of its only argument
      next c he =>
      have hparts := parts_eq_children (expr?_eq_some.1 he)
      rw [h.callQualifier?_eq hfinal param _
        (fun arg harg => hpart arg (by simp [hparts, Kind.children, Expr.children, harg]))
        fun q hq => hpart q (by simp [hparts, Kind.children, Expr.children, Option.mem_def.1 hq])]
    · next type arg target he =>
      rw [h.isParam_eq param (hpart arg
        (by simp [parts_eq_children (expr?_eq_some.1 he), Kind.children, Expr.children]))]
    · rfl
  · rfl

theorem reduceAction?_eq (hfinal : tree.SameFinality next analyzer.flow hidden loop) (param : VarId)
    (hn : tree.Reaches loop n) :
    Forwarding.reduceAction? analyzer next param n =
      Forwarding.reduceAction? analyzer tree param n := by
  -- an action that is no expression is never reduced
  have hexpression : Forwarding.actionExpression? next n = Forwarding.actionExpression? tree n := by
    unfold Forwarding.actionExpression?
    rw [(h.sameBelow hn).stmt?_eq]
  rw [Forwarding.reduceAction?, Forwarding.reduceAction?, hexpression]
  cases hvalue : Forwarding.actionExpression? tree n with
  | none => rfl
  | some value =>
    refine h.reduce?_eq hfinal param (hn.tail ?_)
    unfold Forwarding.actionExpression? at hvalue
    split at hvalue
    · next hstmt =>
      cases hvalue
      simp [parts_eq_children (stmt?_eq_some.1 hstmt), Kind.children, Stmt.children]
    · cases hvalue

theorem isTrivial_eq (hfinal : tree.SameFinality next analyzer.flow hidden loop) (param : VarId)
    {chain : GuardChain} (haction : tree.Reaches loop chain.action) (action : LoopAction) :
    Candidate.isTrivial analyzer next param chain action =
      Candidate.isTrivial analyzer tree param chain action := by
  unfold Candidate.isTrivial
  rw [h.reduceAction?_eq hfinal param haction]

/-! ### The loop -/

/-- **The loop is a candidate as before**, or is turned down for the same reason. -/
theorem candidate_eq (hfinal : tree.SameFinality next analyzer.flow hidden loop) :
    Candidate.of analyzer next loop = Candidate.of analyzer tree loop := by
  rw [Candidate.of, Candidate.of, h.partsOf_eq]
  refine bind_congr_of_ok fun parts hparts => ?_
  obtain ⟨param, source, body⟩ := parts
  have hforEach := Candidate.partsOf_eq_ok hparts
  have hkind := forEach?_eq_some.1 hforEach
  have hloop : (tree.forEach? loop).isSome := by simp [hforEach]
  have hbody : tree.StrictlyReaches loop body := .of_mem (by
    simp [parts_eq_children hkind, Kind.children, Stmt.children])
  have hstmt : tree.Holds .statement body :=
    h.before.fits loop _ h.was_attached hkind .statement body (by simp [Kind.slots, Stmt.slots])
  -- the guards are the same, and the action and the conditions hang in the loop
  have hchain : GuardChain.of next body = GuardChain.of tree body :=
    (h.sameBelow hbody.reaches).guardChain_eq (h.grounded hbody.reaches)
  have hguarded := (h.grounded hbody.reaches).guarded_of
  have haction : tree.StrictlyReaches loop (GuardChain.of tree body).action :=
    Relation.TransGen.trans_left hbody hguarded.reaches_action
  dsimp only
  rw [h.checkBody_eq hfinal hloop hbody hstmt, hchain, h.action_eq hloop haction fun cond hcond =>
    hbody.trans (hguarded.reaches_condition hcond)]
  simp only [h.isTrivial_eq hfinal param haction.reaches]

end Tree.Undisturbed

/-- **The report on the loop** is the same, but for the revision. -/
theorem Inspector.inspect_eq_of_undisturbed (inspector : Inspector)
    (h : tree.Undisturbed next hidden loop)
    (hspan : ∀ source, tree.Reaches loop source → next.span source = tree.span source)
    (hfinal : tree.SameFinality next inspector.analyzer.flow hidden loop) :
    inspector.inspect next loop = (inspector.inspect tree loop).map fun finding =>
      { finding with revision := next.revision } := by
  rw [inspect, inspect, candidate, candidate, h.candidate_eq hfinal]
  cases hcandidate : Candidate.of inspector.analyzer tree loop with
  | error refusal => rfl
  | ok candidate =>
    have hfound := Candidate.found_of_eq_ok hcandidate
    have hsource : tree.Reaches loop candidate.source := .of_mem (by
      simp [Tree.parts_eq_children (Tree.forEach?_eq_some.1 hfound.forEach), Kind.children,
        Stmt.children])
    -- the finding is shown at the source, which is in the loop
    obtain ⟨place, hplace⟩ := Tree.exists_span (h.lt_size hsource)
    simp only [ok_bind, Finding.of, hspan _ hsource, hplace]
    rfl

end LoopToStream
