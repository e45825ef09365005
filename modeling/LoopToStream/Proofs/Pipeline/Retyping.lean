import LoopToStream.Proofs.Pipeline.Declaring
import LoopToStream.Proofs.Tree.Placing

/-!
# Failures between two changes

Where a parameter has to be written with its type, a plan is carried out with two commits, and a
failure between them would leave the tree changed. There is none on any tree whose parents are set
and in which no way down returns, however its nodes are linked otherwise:

* what is staged for a plan that runs a function is known exactly (`exists_call_of_stagePlan`): the
  call hangs below what takes the place of the loop, which is put in place by the last operation;
* once it is there, the call hangs in the tree, and nothing is missing below what hung there before
  (`call_of_commit`);
* so the function can be replaced (`exists_disambiguate`).

What is left of failures comes before the first commit, which changes nothing
(`eq_of_install_failed`).
-/

namespace LoopToStream

namespace Pipeline

variable {options : Options} {tree mid next : Tree} {place : Span} {plan : Pipeline}
    {edit before : Edit}
  {staged : Staged} {symbols : Symbols} {refusal : Refusal Failure} {call f new stmt c : NodeId}

/-! ### Writing the type -/

/-- Staged code that links one node of the tree, and staged nodes besides, can replace a node. -/
theorem exists_commit_over (h : tree.Parented) (hacyclic : tree.Acyclic) (hf : tree.Attached f)
    (hc : tree.Whole c) (nodes : Array Node) (top : Nat) (htop : top < nodes.size)
    (inner : List NodeId)
    (hinner : ∀ n ∈ inner, tree.size ≤ n.index ∧ n.index < tree.size + nodes.size)
    (hnodup : inner.Nodup)
    (hlinks : nodes.toList.flatMap (fun node => node.kind.children) = c :: inner) :
    ∃ next, tree.commit ⟨tree.size, tree.revision, nodes, [.replace f ⟨tree.size + top⟩]⟩ =
      .ok next := by
  have hlt : c.index < tree.size := hc _ (.refl _)
  -- all that is linked is there, or has just been staged
  have hknown : ∀ n ∈ c :: inner, n.index < tree.size + nodes.size ∧
      (n.index < tree.size → tree.Whole n) := by
    refine List.forall_mem_cons.2 ⟨⟨by omega, fun _ => hc⟩, fun n hn => ⟨(hinner n hn).2, ?_⟩⟩
    exact fun hold => absurd hold (Nat.not_lt.2 (hinner n hn).1)
  refine Edit.exists_commit_replace h hf rfl ⟨Nat.le_add_right _ _, ?_⟩ ?_ hacyclic rfl rfl ?_
  · show tree.size + top < tree.size + nodes.size
    omega
  · intro node hnode n hn
    have hmem : n ∈ nodes.toList.flatMap fun node => node.kind.children :=
      List.mem_flatMap.2 ⟨node, hnode, hn⟩
    exact hknown n (hlinks ▸ hmem)
  · show Edit.checkLinks _ [] (nodes.toList.flatMap fun node => node.kind.children) = .ok ()
    rw [hlinks]
    refine Edit.checkLinks_eq_ok (fun n hn => (hknown n hn).1) ?_ (by simp)
    -- the node of the tree is none of the staged ones
    exact List.nodup_cons.2 ⟨fun hmem => absurd hlt (Nat.not_lt.2 (hinner c hmem).1), hnodup⟩

/-- **A function can be written with the type of its parameter**, where it hangs in the tree and
nothing is missing below the action. -/
theorem exists_commit_explicitly (h : tree.Parented) (hacyclic : tree.Acyclic)
    (hf : tree.Attached f) (haction : tree.Whole plan.action) :
    ∃ edit next, explicitly tree plan f = .ok edit ∧ tree.commit edit = .ok next := by
  obtain ⟨place, hplace⟩ := Tree.exists_span (h.known f hf)
  cases hblock : tree.isBlock plan.action with
  | true =>
    -- a block is the body as it stands
    have hbody : stageBody place (blockOf tree plan.action) (Edit.start tree) =
        .ok (plan.action, Edit.start tree) := by
      rw [blockOf, if_pos hblock]
      rfl
    have hlambda : stageExpr place (.lambda [plan.param] true plan.action) (Edit.start tree) =
        .ok (⟨tree.size⟩, ⟨tree.size, tree.revision,
          #[⟨.expr (.lambda [plan.param] true plan.action), none, place⟩], []⟩) := rfl
    obtain ⟨next, hcommit⟩ := exists_commit_over h hacyclic hf haction
      #[⟨.expr (.lambda [plan.param] true plan.action), none, place⟩] 0 Nat.zero_lt_one
      [] (by simp) (by simp) rfl
    exact ⟨_, next, explicitly_eq tree plan f hplace hbody hlambda, hcommit⟩
  | false =>
    -- any other statement gets a block around it, which is one more node
    have hbody : stageBody place (blockOf tree plan.action) (Edit.start tree) =
        .ok (⟨tree.size⟩, ⟨tree.size, tree.revision,
          #[⟨.stmt (.block [plan.action]), none, place⟩], []⟩) := by
      rw [blockOf, if_neg (by simp [hblock])]
      rfl
    have hlambda : stageExpr place (.lambda [plan.param] true ⟨tree.size⟩)
        ⟨tree.size, tree.revision, #[⟨.stmt (.block [plan.action]), none, place⟩], []⟩ =
        .ok (⟨tree.size + 1⟩, ⟨tree.size, tree.revision,
          #[⟨.stmt (.block [plan.action]), none, place⟩,
            ⟨.expr (.lambda [plan.param] true ⟨tree.size⟩), none, place⟩], []⟩) := rfl
    obtain ⟨next, hcommit⟩ := exists_commit_over h hacyclic hf haction
      #[⟨.stmt (.block [plan.action]), none, place⟩,
        ⟨.expr (.lambda [plan.param] true ⟨tree.size⟩), none, place⟩] 1 Nat.one_lt_two
      [⟨tree.size⟩] (by simp) (by simp) rfl
    exact ⟨_, next, explicitly_eq tree plan f hplace hbody hlambda, hcommit⟩

/-- **The function of a call can be written so**, where the call hangs in the tree. -/
theorem exists_disambiguate (symbols : Symbols) (h : tree.Parented) (hacyclic : tree.Acyclic)
    (hcall : tree.Attached call) {receiver : Option NodeId} {method : String}
    {target : Option MethodId}
    (hkind : tree.kind? call = some (.expr (.call ⟨receiver, method, [f], target⟩)))
    (haction : tree.Whole plan.action) :
    ∃ typed next, disambiguate symbols plan call tree = .ok typed next := by
  cases haccepts : symbols.acceptsBareLambda tree call with
  | true => exact ⟨_, _, disambiguate_eq_false haccepts⟩
  | false =>
    -- the function is linked from the call
    have hf : tree.Attached f := by
      refine hcall.of_mem ?_
      rw [Tree.parts_eq_children hkind]
      simp [Kind.children, Expr.children]
    cases hclosure : tree.isClosure f with
    | true =>
      obtain ⟨edit, next, hedit, hcommit⟩ := exists_commit_explicitly h hacyclic hf haction
      exact ⟨_, _,
        disambiguate_eq_true haccepts (Tree.call?_eq_some.2 hkind) rfl hclosure hedit hcommit⟩
    | false =>
      -- a reference stays as it is
      have hargument : (tree.call? call).bind (·.args.head?) = some f := by
        simp [Tree.call?_eq_some.2 hkind]
      refine ⟨false, tree, ?_⟩
      rw [disambiguate, TreeChange.bind_of_ok TreeChange.get_eq, if_neg (by simp [haccepts])]
      simp only [hargument, hclosure, Bool.not_false, if_true]
      rfl

/-! ### Fresh nodes -/

/-- The code for a plan is new. -/
theorem fresh_of_stagePlan
    (h : stagePlan options tree place plan (Edit.start tree) = .ok (staged, edit)) : edit.Fresh :=
  Keeps.stagePlan (fun _ kind place h => h.add kind place) (fun _ op h => h.addOp op) _ _ _ h
    (Edit.fresh_start tree)

/-- So is the literal with the type of its parameter. -/
theorem fresh_of_explicitly (h : explicitly tree plan f = .ok edit) : edit.Fresh := by
  have hadd : ∀ e kind place, Edit.Fresh e → (Edit.add e kind place).2.Fresh :=
    fun _ kind place h => h.add kind place
  obtain ⟨place, -, h⟩ := bind_eq_ok.1 h
  obtain ⟨⟨⟨⟩, after⟩, hafter, h⟩ := bind_eq_ok.1 h
  cases h
  have hlambda : ∀ body, Keeps Edit.Fresh (do
      let lambda ← stageExpr place (.lambda [plan.param] true body)
      stageOp (.replace f lambda)) := fun body =>
    Keeps.bind (Keeps.stage hadd _) fun _ => Keeps.stageOp (fun _ op h => h.addOp op) _
  dsimp only at hafter
  split at hafter
  · exact Keeps.bind (Keeps.pure _) hlambda _ _ _ hafter (Edit.fresh_start tree)
  · exact Keeps.bind (Keeps.stage hadd _) hlambda _ _ _ hafter (Edit.fresh_start tree)

/-! ### The call of a plan that runs a function -/

/-- What takes the place of the loop is the statement, or a block with the statement in it. -/
theorem stageReplacement_eq_ok (hbase : before.baseSize = tree.size) (hops : before.ops = [])
    (hstmt : tree.size ≤ stmt.index)
    (h : stageReplacement tree place plan stmt before = .ok (new, edit)) :
    (before.atop tree).Grows (edit.atop tree) ∧ tree.size ≤ new.index ∧
      (new = stmt ∨ stmt ∈ (edit.atop tree).parts new) ∧ ∃ comments, comments ⊆ plan.comments ∧
        edit.ops = comments.map (EditOp.insertBefore plan.loop) ++ [.replace plan.loop new] := by
  unfold stageReplacement at h
  obtain ⟨inBlock, mid, hlift, h⟩ := staging_bind_eq_ok.1 h
  obtain ⟨answer, -, hmid⟩ := bind_eq_ok.1 hlift
  cases hmid
  split at h
  · -- the comments are inserted in front of the loop
    obtain ⟨⟨⟩, mid, hcomments, h⟩ := staging_bind_eq_ok.1 h
    rw [stageOps_eq, hops] at hcomments
    cases hcomments
    cases h
    exact ⟨.refl _, hstmt, .inl rfl, plan.comments, List.Subset.refl _, rfl⟩
  · -- or are put in a block with the statement
    cases h
    have hkind := Edit.add_kind? hbase (.stmt (.block (plan.comments ++ [stmt]))) place
    refine ⟨Edit.grows_add hbase _ place, ?_, .inr ?_, [], List.nil_subset _,
      by simp [hops, Edit.addOp]⟩
    · show tree.size ≤ before.limit
      rw [Edit.limit, hbase]
      exact Nat.le_add_right _ _
    · show stmt ∈ ((before.add (.stmt (.block (plan.comments ++ [stmt]))) place).2.atop tree).parts
        ⟨before.limit⟩
      rw [Tree.parts_eq_children hkind]
      simp [Kind.children, Stmt.children]

/-- The edit belongs to the tree, and has no operations yet. -/
def Begun (tree : Tree) (edit : Edit) : Prop := edit.baseSize = tree.size ∧ edit.ops = []

theorem Begun.le_limit (h : Begun tree edit) : tree.size ≤ edit.limit := by
  rw [Edit.limit, h.1]
  exact Nat.le_add_right _ _

/-- **The call that is staged** for a plan that runs a function hangs below what takes the place of
the loop, which is what the last operation puts there. -/
theorem exists_call_of_stagePlan
    (h : stagePlan options tree place plan (Edit.start tree) = .ok (staged, edit))
    (hcall : staged.terminalCall = some call) :
    ∃ chain f stmt new comments, tree.size ≤ call.index ∧ tree.size ≤ stmt.index ∧
      tree.size ≤ new.index ∧
      (edit.atop tree).kind? call = some (.expr (.call ⟨some chain, "forEach", [f], none⟩)) ∧
      (edit.atop tree).kind? stmt = some (.stmt (.expr call)) ∧
      (new = stmt ∨ stmt ∈ (edit.atop tree).parts new) ∧ comments ⊆ plan.comments ∧
      edit.ops = comments.map (EditOp.insertBefore plan.loop) ++ [.replace plan.loop new] := by
  have hkeeps : ∀ e kind place, Begun tree e → Begun tree (Edit.add e kind place).2 :=
    fun _ _ _ h => h
  unfold stagePlan at h
  obtain ⟨chain, e₁, hchain, h⟩ := staging_bind_eq_ok.1 h
  have h₁ : Begun tree e₁ := Keeps.stageChain hkeeps _ _ _ hchain ⟨rfl, rfl⟩
  generalize plan.terminal = terminal at h
  generalize plan.fold = fold at h
  cases fold with
  | some fold =>
    cases terminal with
    | collect collector =>
      -- a pipeline that collects has no call at the end
      obtain ⟨collected, e₂, -, h⟩ := staging_bind_eq_ok.1 h
      obtain ⟨-, e₃, -, h⟩ := staging_bind_eq_ok.1 h
      obtain ⟨-, e₄, -, h⟩ := staging_bind_eq_ok.1 h
      obtain ⟨-, e₅, -, h⟩ := staging_bind_eq_ok.1 h
      cases h
      cases hcall
    | _ => simp [violate] at h
  | none =>
    cases terminal with
    | collect collector => simp [violate] at h
    | addAll receiver =>
      obtain ⟨collected, e₂, -, h⟩ := staging_bind_eq_ok.1 h
      obtain ⟨call, e₃, -, h⟩ := staging_bind_eq_ok.1 h
      obtain ⟨stmt, e₄, -, h⟩ := staging_bind_eq_ok.1 h
      obtain ⟨new, e₅, -, h⟩ := staging_bind_eq_ok.1 h
      cases h
      cases hcall
    | forEach function =>
      -- the function is staged, the call of it, the statement, and what stands there
      obtain ⟨called, e₃, hstep, h⟩ := staging_bind_eq_ok.1 h
      obtain ⟨f, e₂, hfunction, hcalled⟩ := staging_bind_eq_ok.1 hstep
      have h₂ : Begun tree e₂ := Keeps.stageFunction hkeeps function _ _ _ hfunction h₁
      obtain ⟨stmt, e₄, hstmt, h⟩ := staging_bind_eq_ok.1 h
      obtain ⟨new, e₅, hreplace, hend⟩ := staging_bind_eq_ok.1 h
      cases hcalled
      cases hstmt
      cases hend
      cases hcall
      have h₃ := hkeeps _ (.expr (.call ⟨some chain, "forEach", [f], none⟩)) place h₂
      have h₄ := hkeeps _ (.stmt (.expr ⟨e₂.limit⟩)) place h₃
      obtain ⟨hgrows, hnew, hstands, comments, hcomments, hops⟩ :=
        stageReplacement_eq_ok h₄.1 h₄.2 h₃.le_limit hreplace
      refine ⟨chain, f, _, new, comments, h₂.le_limit, h₃.le_limit, hnew, ?_, ?_, hstands,
        hcomments, hops⟩
      · exact hgrows.kind?_of_some
          ((Edit.grows_add h₃.1 _ place).kind?_of_some (Edit.add_kind? h₂.1 _ place))
      · exact hgrows.kind?_of_some (Edit.add_kind? h₃.1 _ place)

/-- A plan is only let through where its loop has been found in the tree. -/
theorem attached_loop_of_commit (h : tree.Parented) (hacyclic : tree.Acyclic)
    (hstaged : stagePlan options tree place plan (Edit.start tree) = .ok (staged, edit))
    (hcall : staged.terminalCall = some call) (hcommit : tree.commit edit = .ok mid) :
    tree.Attached plan.loop := by
  obtain ⟨-, -, -, new, comments, -, -, -, -, -, -, -, hops⟩ :=
    exists_call_of_stagePlan hstaged hcall
  obtain ⟨hsize, -, hchecked, -⟩ := Edit.of_commit hcommit
  have hpassed := Edit.passed_of_checkOps hchecked (.replace plan.loop new) (by simp [hops])
  exact (h.isAttached_eq_true hacyclic (hsize ▸ hpassed.anchor_known)).1 hpassed.attached

/-- **Once the plan has been carried out**, the call hangs in the tree, and nothing is missing below
what hung there before. -/
theorem call_of_commit (h : tree.Parented) (hloop : tree.Attached plan.loop)
    (hcomments : ∀ c ∈ plan.comments, tree.Attached c)
    (hstaged : stagePlan options tree place plan (Edit.start tree) = .ok (staged, edit))
    (hcall : staged.terminalCall = some call) (hcommit : tree.commit edit = .ok mid) :
    mid.Parented ∧ mid.Attached call ∧
      (∃ chain f, mid.kind? call = some (.expr (.call ⟨some chain, "forEach", [f], none⟩))) ∧
      ∀ c, tree.Attached c → mid.Whole c := by
  obtain ⟨chain, f, stmt, new, comments, hcallNew, hstmtNew, hnew, hcallKind, hstmtKind,
    hstands, hsub, hops⟩ := exists_call_of_stagePlan hstaged hcall
  have hfresh := fresh_of_stagePlan hstaged
  -- the commit performs the operations on the tree with the staged nodes in it
  obtain ⟨-, -, -, changed, hchanged, rfl⟩ := Edit.of_commit hcommit
  have hfirst := h.atop hfresh
  have hattached : ∀ n, (edit.atop tree).Attached n ↔ tree.Attached n := fun n =>
    Tree.attached_atop_iff_of_known h.known
  rw [hops, List.foldlM_append] at hchanged
  obtain ⟨now, hnow, hlast⟩ := bind_eq_ok.1 hchanged
  rw [List.foldlM_cons] at hlast
  obtain ⟨last, happly, hlast⟩ := bind_eq_ok.1 hlast
  cases hlast
  -- comments that are inserted make the tree wider, and then the loop is replaced
  have hwidened : (edit.atop tree).Widened now := (Tree.Widened.refl hfirst).insertAll
    ((hattached _).2 hloop) (fun c hc => (hattached c).2 (hcomments c (hsub hc))) hnow
  have hplaced := hwidened.replace ((hattached _).2 hloop) happly
  -- staged nodes are as they were staged
  have hstill : ∀ n : NodeId, tree.size ≤ n.index → changed.kind? n = (edit.atop tree).kind? n :=
    fun n hn => hplaced.apart n fun hatt =>
      absurd (h.known n ((hattached n).1 hatt)) (Nat.not_lt.2 hn)
  have hstmt : changed.Attached stmt := by
    rcases hstands with rfl | hmem
    · exact hplaced.attached
    · refine hplaced.attached.of_mem ?_
      rwa [Tree.parts, hstill new hnew, ← Tree.parts]
  have hstmtAfter := (hstill stmt hstmtNew).trans hstmtKind
  have hcallAfter := (hstill call hcallNew).trans hcallKind
  refine ⟨⟨hplaced.parented.known, fun id hid => ⟨(hplaced.parented.parentSet id hid).links,
    (hplaced.parented.parentSet id hid).unlinked⟩⟩, ?_, ⟨chain, f, hcallAfter⟩, fun c hc => ?_⟩
  · show changed.Attached call
    refine hstmt.of_mem ?_
    rw [Tree.parts_eq_children hstmtAfter]
    simp [Kind.children, Stmt.children]
  · exact hplaced.whole hfirst ((hattached c).2 hc)

/-! ### Failures -/

/-- A second change that fails changes nothing. -/
theorem disambiguate_eq_error (h : disambiguate symbols plan call tree = .error refusal next) :
    next = tree := by
  rw [disambiguate, TreeChange.bind_of_ok TreeChange.get_eq] at h
  split at h
  · cases h
  · cases hf : (tree.call? call).bind (·.args.head?) with
    | none =>
      simp only [hf] at h
      exact (TreeChange.ofAttempt_eq_error.1 h).2.symm
    | some f =>
      simp only [hf] at h
      split at h
      · cases h
      · -- staging fails before the commit, and a commit that fails changes nothing
        rcases TreeChange.bind_eq_error.1 h with h | ⟨edit, mid, hattempt, h⟩
        · exact (TreeChange.ofAttempt_eq_error.1 h).2.symm
        obtain ⟨-, rfl⟩ := TreeChange.ofAttempt_eq_ok.1 hattempt
        rcases TreeChange.bind_eq_error.1 h with h | ⟨⟨⟩, last, -, h⟩
        · exact TreeChange.commit_eq_error h
        · cases h

/-- **A failure that leaves a trace** is one of the second change. -/
theorem install_failed_cases (h : plan.install symbols options tree = .error refusal next) :
    next = tree ∨ ∃ place staged edit call, tree.span plan.loop = .ok place ∧
      stagePlan options tree place plan (Edit.start tree) = .ok (staged, edit) ∧
      tree.commit edit = .ok next ∧ staged.terminalCall = some call ∧
      disambiguate symbols plan call next = .error refusal next := by
  rw [install, TreeChange.bind_of_ok TreeChange.get_eq] at h
  dsimp only at h
  split at h
  · rcases TreeChange.bind_eq_error.1 h with h | ⟨⟨⟩, mid, h, -⟩
    · exact .inl (TreeChange.ofAttempt_eq_error.1 h).2.symm
    · -- what is no loop is refused
      obtain ⟨place, -, h⟩ := bind_eq_ok.1 (TreeChange.ofAttempt_eq_ok.1 h).1
      exact absurd h refuse_ne_ok
  · -- place, staging, first commit: nothing has been changed if one of them fails
    rcases TreeChange.bind_eq_error.1 h with h | ⟨place, mid, hspan, h⟩
    · exact .inl (TreeChange.ofAttempt_eq_error.1 h).2.symm
    obtain ⟨hplace, rfl⟩ := TreeChange.ofAttempt_eq_ok.1 hspan
    rcases TreeChange.bind_eq_error.1 h with h | ⟨⟨staged, edit⟩, mid, hstage, h⟩
    · exact .inl (TreeChange.ofAttempt_eq_error.1 h).2.symm
    obtain ⟨hstaged, rfl⟩ := TreeChange.ofAttempt_eq_ok.1 hstage
    rcases TreeChange.bind_eq_error.1 h with h | ⟨⟨⟩, mid, hcommit, h⟩
    · exact .inl (TreeChange.commit_eq_error h)
    cases hcall : staged.terminalCall with
    | none =>
      rw [hcall] at h
      rcases TreeChange.bind_eq_error.1 h with h | ⟨typed, last, -, h⟩
      · cases h
      · cases h
    | some call =>
      rw [hcall] at h
      dsimp only at h
      rcases TreeChange.bind_eq_error.1 h with h | ⟨typed, last, -, h⟩
      · -- the first commit has been made, and the second change fails
        obtain rfl := disambiguate_eq_error h
        exact .inr ⟨place, staged, edit, call, Attempt.liftM_eq_ok.1 hplace, hstaged,
          TreeChange.commit_eq_ok hcommit, hcall, h⟩
      · cases h

/-- **There is no such failure**, where the tree that it would leave has no way down that returns.
What the plan keeps of the loop is below the loop. -/
theorem eq_of_install_failed (h : tree.Parented) (hacyclic : tree.Acyclic)
    (hcomments : ∀ c ∈ plan.comments, tree.Reaches plan.loop c)
    (haction : tree.Reaches plan.loop plan.action)
    (hfailed : plan.install symbols options tree = .error refusal next) (hnext : next.Acyclic) :
    next = tree := by
  refine (install_failed_cases hfailed).resolve_right ?_
  rintro ⟨place, staged, edit, call, -, hstaged, hcommit, hcall, hsecond⟩
  have hloop := attached_loop_of_commit h hacyclic hstaged hcall hcommit
  obtain ⟨hparented, hattached, ⟨chain, f, hkind⟩, hwhole⟩ :=
    call_of_commit h hloop (fun c hc => hloop.reaches (hcomments c hc)) hstaged hcall hcommit
  obtain ⟨typed, last, hdone⟩ :=
    exists_disambiguate symbols hparented hnext hattached hkind (hwhole _ (hloop.reaches haction))
  rw [hdone] at hsecond
  cases hsecond

/-! ### What a plan keeps -/

/-- The innermost action of guards is below the outermost of them. -/
theorem reaches_action_within (tree : Tree) (fuel : Nat) (id : NodeId) :
    tree.Reaches id (GuardChain.within tree fuel id).action := by
  induction fuel generalizing id with
  | zero => exact .refl _
  | succ fuel ih =>
    rw [GuardChain.within]
    cases hguard : GuardChain.guard? tree id with
    | none => exact .refl _
    | some parts =>
      obtain ⟨cond, branch⟩ := parts
      have hbranch : branch ∈ tree.parts id := by simp [Tree.parts_of_guard? hguard]
      exact ((tree.reaches_unwrapSingleBlock branch).trans (ih _)).head hbranch

/-- What passes a test is one of those that were tested. -/
theorem mem_of_filterM_eq_ok {α ε : Type} {test : α → Except ε Bool} {l kept : List α}
    (h : l.filterM test = .ok kept) : kept ⊆ l := by
  -- what has been kept so far stands in reverse in front
  have haux : ∀ (l found kept : List α), l.filterAuxM test found = .ok kept →
      ∀ a ∈ kept, a ∈ l ∨ a ∈ found := by
    intro l
    induction l with
    | nil =>
      intro found kept h a ha
      cases h
      exact .inr ha
    | cons x l ih =>
      intro found kept h a ha
      -- the answer decides whether the first element is kept or dropped
      obtain ⟨answer, -, hrest⟩ := bind_eq_ok.1 h
      rcases ih _ _ hrest a ha with hl | hfound
      · exact .inl (List.mem_cons_of_mem _ hl)
      · cases answer with
        | true =>
          rcases List.mem_cons.1 hfound with rfl | hfound
          · exact .inl List.mem_cons_self
          · exact .inr hfound
        | false => exact .inr hfound
  obtain ⟨found, hfound, hkept⟩ := bind_eq_ok.1 h
  cases hkept
  intro a ha
  rcases haux l [] found hfound a (List.mem_reverse.1 ha) with hl | hnil
  · exact hl
  · cases hnil

/-- **What a plan keeps of the loop** and what it saves is below the loop. -/
theorem reaches_of_eq_ok {analyzer : Analyzer} {candidate : Candidate} {loop : NodeId}
    (hfound : Candidate.Found analyzer tree loop candidate)
    (h : Pipeline.of analyzer options tree candidate = .ok plan) :
    plan.loop = loop ∧ tree.Reaches loop plan.action ∧ ∀ c ∈ plan.comments,
      tree.Reaches loop c := by
  have hbody : candidate.body ∈ tree.parts loop := by simp [hfound.parts_eq]
  rw [Pipeline.of] at h
  obtain ⟨ending, -, h⟩ := bind_eq_ok.1 h
  obtain ⟨comments, hcomments, h⟩ := bind_eq_ok.1 h
  obtain ⟨givenUp, hgivenUp, h⟩ := bind_eq_ok.1 h
  cases h
  refine ⟨hfound.loop_eq, ?_, fun c hc => ?_⟩
  · -- the action is below the body, whatever guards are taken off
    show tree.Reaches loop candidate.chain.action
    rw [hfound.chain_eq]
    exact ((tree.reaches_unwrapSingleBlock candidate.body).trans
      (reaches_action_within tree tree.pathBound _)).head hbody
  · -- a comment that is saved is one of those found in the body
    have hmem : c ∈ comments := mem_of_filterM_eq_ok (Attempt.liftM_eq_ok.1 hgivenUp) hc
    obtain ⟨below, hbelow, hfiltered⟩ := bind_eq_ok.1 (Attempt.liftM_eq_ok.1 hcomments)
    cases hfiltered
    obtain ⟨-, -, hall⟩ := bind_eq_ok.1 hbelow
    cases hall
    exact (Tree.mem_preorder_iff.1 (List.mem_filter.1 hmem).1).head hbody

end Pipeline

end LoopToStream
