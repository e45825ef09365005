import LoopToStream.Proofs.Loop.Candidate
import LoopToStream.Proofs.Loop.Chain
import LoopToStream.Proofs.Pipeline.Forwarding

/-!
# What a plan says

For a loop that has passed every check there is a plan (`Pipeline.exists_of`), and it says what
the loop does:

* `Pipeline.Maps`, `Pipeline.Runs` — which function stands for a value and which for an action;
* `Pipeline.Ends` — what is done at the end, by the sort of the loop and by what stands in front
  of it;
* `Pipeline.Follows` — the plan as a whole, with a predicate for each guard and the comments that
  are in no part that is kept.
-/

namespace LoopToStream

open scoped List
open LoopToStream.Tree (mem_preorder_iff)

namespace Pipeline

variable {analyzer : Analyzer} {options : Options} {tree : Tree} {param var : VarId}
  {value action loop : NodeId} {candidate : Candidate}

/-! ### Functions -/

/-- The mapping from an element to the value of an expression. -/
inductive Maps (analyzer : Analyzer) (tree : Tree) (param : VarId) (value : NodeId) :
    Option StageFunction → Prop where
  /-- The value is the element. -/
  | element (is_param : Forwarding.isParam tree param value = true) :
      Maps analyzer tree param value none
  | literal (not_param : Forwarding.isParam tree param value = false) :
      Maps analyzer tree param value (some (.lambda param (.expr value)))
  | reference {qualifier : Qualifier} {method : String}
      (not_param : Forwarding.isParam tree param value = false)
      (answer : Forwarding.reduce? analyzer tree param value =
        .ok (some (.methodRef qualifier method)))
      (form : Forwarding.Reduced tree param (tree.skipParens value) qualifier method) :
      Maps analyzer tree param value (some (.methodRef qualifier method))

/-- The function that runs a statement. -/
inductive Runs (analyzer : Analyzer) (tree : Tree) (param : VarId) (action : NodeId) :
    StageFunction → Prop where
  | expression {value : NodeId} (here : tree.kind? action = some (.stmt (.expr value))) :
      Runs analyzer tree param action (.lambda param (.expr value))
  | block {stmts : List NodeId} (here : tree.kind? action = some (.stmt (.block stmts))) :
      Runs analyzer tree param action (.lambda param (.block action))
  | statement {s : Stmt NodeId} (here : tree.kind? action = some (.stmt s))
      (no_expr : ∀ value, s ≠ .expr value) (no_block : ∀ stmts, s ≠ .block stmts) :
      Runs analyzer tree param action (.lambda param (.wrapped action))
  | reference {value : NodeId} {qualifier : Qualifier} {method : String}
      (here : tree.kind? action = some (.stmt (.expr value)))
      (answer : Forwarding.reduce? analyzer tree param value =
        .ok (some (.methodRef qualifier method)))
      (form : Forwarding.Reduced tree param (tree.skipParens value) qualifier method) :
      Runs analyzer tree param action (.methodRef qualifier method)

theorem exists_mapperOf (analyzer : Analyzer) (options : Options) (hwf : tree.WellFormed)
    (hparam : param.index < tree.vars.size) (value : NodeId) :
    ∃ mapper, mapperOf analyzer options tree param value = .ok mapper ∧
      Maps analyzer tree param value mapper := by
  unfold mapperOf
  cases hvalue : Forwarding.isParam tree param value with
  | true => exact ⟨none, rfl, .element hvalue⟩
  | false =>
    simp only [Bool.false_eq_true, if_false]
    -- a call that only forwards the element is written as a reference, if the options ask for it
    split
    · obtain ⟨answer, hanswer, hform⟩ := Forwarding.exists_reduce? analyzer hwf hparam value
      rw [hanswer]
      cases answer with
      | none => exact ⟨_, rfl, .literal hvalue⟩
      | some f =>
        obtain ⟨q, m, rfl, hreduced⟩ := hform f rfl
        exact ⟨_, rfl, .reference hvalue hanswer hreduced⟩
    · exact ⟨_, rfl, .literal hvalue⟩

theorem runs_lambda (haction : tree.Holds .statement action) :
    Runs analyzer tree param action (.lambda param (lambdaBodyOf tree action)) := by
  obtain ⟨kind, hkind, hadmits⟩ := haction
  -- a statement is what stands in a place for statements
  cases kind with
  | stmt s =>
    have hstmt := Tree.stmt?_eq_some.2 hkind
    unfold lambdaBodyOf
    rw [hstmt]
    cases s with
    | expr value => exact .expression hkind
    | block stmts => exact .block hkind
    | _ => exact .statement hkind nofun nofun
  | expr e => cases hadmits
  | comment text => cases hadmits

theorem exists_actionFunction (analyzer : Analyzer) (options : Options) (hwf : tree.WellFormed)
    (hparam : param.index < tree.vars.size) (haction : tree.Holds .statement action) :
    ∃ function, actionFunction analyzer options tree param action = .ok function ∧
      Runs analyzer tree param action function := by
  unfold actionFunction
  -- an action that only forwards the element becomes a reference, and any other one a literal
  split
  · obtain ⟨answer, hanswer, hform⟩ :=
      Forwarding.exists_reduceAction? analyzer hwf hparam action
    rw [hanswer]
    cases answer with
    | none => exact ⟨_, rfl, runs_lambda haction⟩
    | some f =>
      obtain ⟨value, q, m, hkind, rfl, hreduce, hreduced⟩ := hform f rfl
      exact ⟨_, rfl, .reference hkind hreduce hreduced⟩
  · exact ⟨_, rfl, runs_lambda haction⟩

/-! ### Collecting -/

/-- The declaration of a variable with a new, empty collection, right in front of a loop. -/
inductive FoldSite (tree : Tree) (loop : NodeId) (var : VarId) : Collector → Fold → Prop where
  | declared {up declaration init : NodeId} {left right : List NodeId} {type : ClassType}
      {target : Option MethodId} (up_attached : tree.Attached up)
      (block : tree.kind? up = some (.stmt (.block (left ++ declaration :: loop :: right))))
      (here : tree.kind? declaration = some (.stmt (.declare var (some init))))
      (creation : tree.kind? init = some (.expr (.create ⟨type, [], target⟩))) :
      FoldSite tree loop var (collectorFor type init) ⟨declaration, init⟩

theorem exists_foldSite? (hwf : tree.WellFormed) (hloop : tree.Attached loop) (var : VarId) :
    ∃ answer, foldSite? tree loop var = .ok answer ∧
      ∀ collector fold, answer = some (collector, fold) →
        FoldSite tree loop var collector fold := by
  obtain ⟨previous, hprevious⟩ := Tree.exists_prevSibling? (hwf.lt_size hloop)
  unfold foldSite?
  rw [hprevious]
  cases previous with
  | none => exact ⟨none, rfl, nofun⟩
  | some declaration =>
    -- a statement in front of the loop stands with it in a block
    obtain ⟨up, left, right, hup, hblock⟩ := hwf.prevSibling?_eq_some (hwf.lt_size hloop) hprevious
    have hdeclaration : tree.Attached declaration := hup.of_mem (by
      rw [Tree.parts_eq_children hblock]
      simp [Kind.children, Stmt.children])
    obtain ⟨kind, hkind⟩ := Tree.exists_kind_of_lt (hwf.lt_size hdeclaration)
    simp only [ok_bind, Tree.kind_of_kind? hkind]
    split
    · next declared init =>
      split
      · exact ⟨none, rfl, nofun⟩
      · next hsame =>
        split
        · -- only a creation without arguments is folded into
          next type target hinit =>
          refine ⟨_, rfl, fun collector fold heq => ?_⟩
          cases heq
          rw [not_not] at hsame
          exact .declared hup hblock (hsame ▸ hkind) (Tree.expr?_eq_some.1 hinit)
        · exact ⟨none, rfl, nofun⟩
    · exact ⟨none, rfl, nofun⟩

/-- How the elements are gathered: into the declared collection, or behind what is there. -/
inductive Gathers (tree : Tree) (loop : NodeId) (accumulation : Accumulation) :
    Terminal × Option Fold → Prop where
  | appended : Gathers tree loop accumulation (.addAll accumulation.qualifier, none)
  | folded {var : VarId} {collector : Collector} {fold : Fold}
      (target : accumulation.target = .variable var)
      (site : FoldSite tree loop var collector fold) :
      Gathers tree loop accumulation (.collect collector, some fold)

theorem exists_gathering (hwf : tree.WellFormed) (hloop : tree.Attached loop)
    {accumulation : Accumulation}
    (htarget : ∀ var, accumulation.target = .variable var → var.index < tree.vars.size) :
    ∃ answer, gathering tree loop accumulation = .ok answer ∧
      Gathers tree loop accumulation answer := by
  unfold gathering
  match htarget' : accumulation.target with
  | .implicitReceiver => exact ⟨_, rfl, .appended⟩
  | .variable var =>
    simp only [Tree.var_of_lt (htarget var htarget'), ok_bind]
    -- only of a local variable is the declaration looked for
    split
    · exact ⟨_, rfl, .appended⟩
    · obtain ⟨answer, hanswer, hsite⟩ := exists_foldSite? hwf hloop var
      rw [hanswer]
      cases answer with
      | none => exact ⟨_, rfl, .appended⟩
      | some answer => exact ⟨_, rfl, .folded htarget' (hsite _ _ rfl)⟩

end Pipeline

/-! ### The parts of a loop -/

namespace Candidate.Found

variable {analyzer : Analyzer} {tree : Tree} {loop : NodeId} {candidate : Candidate}
  (h : Found analyzer tree loop candidate)
include h

theorem kind?_eq : tree.kind? loop =
    some (.stmt (.forEach ⟨candidate.param, some candidate.source, some candidate.body⟩)) :=
  Tree.forEach?_eq_some.1 h.forEach

theorem parts_eq : tree.parts loop = [candidate.source, candidate.body] :=
  Tree.parts_eq_children h.kind?_eq

theorem source_attached (hloop : tree.Attached loop) : tree.Attached candidate.source :=
  hloop.of_mem (by simp [h.parts_eq])

theorem body_attached (hloop : tree.Attached loop) : tree.Attached candidate.body :=
  hloop.of_mem (by simp [h.parts_eq])

variable (hwf : tree.WellFormed) (hloop : tree.Attached loop)
include hwf

theorem param_known : candidate.param.index < tree.vars.size :=
  hwf.vars_known loop _ h.kind?_eq _ (by simp [Kind.vars, Stmt.vars])

include hloop

theorem source_holds : tree.Holds .expression candidate.source :=
  hwf.fits loop _ hloop h.kind?_eq .expression _ (by simp [Kind.slots, Stmt.slots])

/-- The conditions and the action, as they are taken off. -/
theorem guarded :
    tree.Guarded candidate.body candidate.chain.conditions candidate.chain.action := by
  rw [h.chain_eq]
  exact (hwf.grounded (h.body_attached hloop)).guarded_of

theorem action_attached : tree.Attached candidate.chain.action :=
  (h.body_attached hloop).reaches (h.guarded hwf hloop).reaches_action

theorem condition_attached {cond : NodeId} (hcond : cond ∈ candidate.chain.conditions) :
    tree.Attached cond :=
  (h.body_attached hloop).reaches ((h.guarded hwf hloop).reaches_condition hcond).reaches

theorem action_holds : tree.Holds .statement candidate.chain.action :=
  ((h.guarded hwf hloop).holds hwf (h.body_attached hloop)
    (hwf.fits loop _ hloop h.kind?_eq .statement _ (by simp [Kind.slots, Stmt.slots]))).1

theorem condition_holds {cond : NodeId} (hcond : cond ∈ candidate.chain.conditions) :
    tree.Holds .expression cond :=
  ((h.guarded hwf hloop).holds hwf (h.body_attached hloop)
    (hwf.fits loop _ hloop h.kind?_eq .statement _ (by simp [Kind.slots, Stmt.slots]))).2 cond hcond

end Candidate.Found

/-! ### The plan -/

namespace Pipeline

variable {analyzer : Analyzer} {options : Options} {tree : Tree} {loop : NodeId}
  {candidate : Candidate} {ending : Ending} {plan : Pipeline}

/-- **How a pipeline ends**, by the action of the loop. -/
inductive Ends (analyzer : Analyzer) (tree : Tree) (candidate : Candidate) : Ending → Prop where
  | performed {function : StageFunction}
      (action : candidate.action = .perform candidate.chain.action)
      (function_runs : Runs analyzer tree candidate.param candidate.chain.action function) :
      Ends analyzer tree candidate
        ⟨none, .forEach function, none, if function.isMethodRef then []
          else [candidate.chain.action]⟩
  | gathered {accumulation : Accumulation} {mapper : Option StageFunction} {terminal : Terminal}
      {fold : Option Fold} (action : candidate.action = .accumulate accumulation)
      (found : Accumulation.Found tree candidate.chain.action accumulation)
      (mapper_maps : Maps analyzer tree candidate.param accumulation.value mapper)
      (gathers : Gathers tree candidate.loop accumulation (terminal, fold)) :
      Ends analyzer tree candidate ⟨mapper, terminal, fold, [accumulation.value]⟩

/-- Nothing is gathered by a pipeline that runs a function on each element. -/
theorem Ends.kind_eq_of_forEach {function : StageFunction} (h : Ends analyzer tree candidate ending)
    (hterminal : ending.terminal = .forEach function) : candidate.kind = .generalAction := by
  cases h with
  | performed action function_runs => simp [Candidate.kind, action, LoopAction.kind]
  | gathered action found mapper_maps gathers => cases gathers <;> cases hterminal

/-- The comments of a loop that are in none of the parts that its pipeline keeps, in source
order. -/
def savedComments (tree : Tree) (candidate : Candidate) (ending : Ending) : List NodeId :=
  ((tree.preorder candidate.body).filter fun n => (tree.comment? n).isSome).filter fun n =>
    !(candidate.chain.conditions ++ ending.kept).any fun part => (tree.preorder part).contains n

theorem savedComments_sublist :
    savedComments tree candidate ending <+ tree.preorder candidate.body :=
  List.filter_sublist.trans List.filter_sublist

theorem mem_savedComments {n : NodeId} :
    n ∈ savedComments tree candidate ending ↔
      tree.Reaches candidate.body n ∧ (tree.comment? n).isSome ∧
        ∀ part ∈ candidate.chain.conditions ++ ending.kept, ¬ tree.Reaches part n := by
  simp only [savedComments, List.mem_filter, mem_preorder_iff, Bool.not_eq_true', List.any_eq_false,
    List.contains_iff_mem]
  tauto

/-- **The plan for a candidate**, given how it ends. -/
structure Follows (tree : Tree) (candidate : Candidate) (ending : Ending) (plan : Pipeline) :
    Prop where
  loop_eq : plan.loop = candidate.loop
  source_eq : plan.source = candidate.source
  param_eq : plan.param = candidate.param
  filters_eq : plan.filters = candidate.chain.conditions.map (filterOf candidate.param)
  mapper_eq : plan.mapper = ending.mapper
  terminal_eq : plan.terminal = ending.terminal
  fold_eq : plan.fold = ending.fold
  action_eq : plan.action = candidate.chain.action
  comments_eq : plan.comments = savedComments tree candidate ending

theorem exists_endingOf (options : Options) (hwf : tree.WellFormed) (hloop : tree.Attached loop)
    (h : Candidate.Found analyzer tree loop candidate) :
    ∃ ending, endingOf analyzer options tree candidate = .ok ending ∧
      Ends analyzer tree candidate ending := by
  have hparam := h.param_known hwf
  unfold endingOf
  cases haction : candidate.action with
  | perform stmt =>
    -- an action that is no accumulation becomes the function at the end
    obtain rfl := LoopAction.perform_eq (haction ▸ h.action_eq)
    obtain ⟨function, hfunction, hruns⟩ := exists_actionFunction analyzer options
      hwf hparam (h.action_holds hwf hloop)
    exact ⟨_, by simp only [hfunction]; rfl, .performed haction hruns⟩
  | accumulate accumulation =>
    -- an accumulation becomes a mapping and a collection
    have hfound := LoopAction.found_of_eq_ok (haction ▸ h.action_eq)
    obtain ⟨resolved, hcall⟩ := hfound.call
    obtain ⟨mapper, hmapper, hmaps⟩ := exists_mapperOf analyzer options
      hwf hparam accumulation.value
    -- a variable that is added to is mentioned where the call is made
    have htarget : ∀ var, accumulation.target = .variable var → var.index < tree.vars.size := by
      intro var hvar
      obtain ⟨q, -, hq⟩ := hfound.target var hvar
      obtain ⟨e, he, hev⟩ := Option.bind_eq_some_iff.1 hq
      refine hwf.vars_known _ _ (Tree.expr?_eq_some.1 he) var ?_
      cases e <;> simp_all [Kind.vars, Expr.vars, Expr.var?]
    obtain ⟨⟨terminal, fold⟩, hgathering, hgathers⟩ := exists_gathering hwf
      (h.loop_eq.symm ▸ hloop) htarget
    exact ⟨_, by simp [hcall, hmapper, hgathering], .gathered haction hfound hmaps hgathers⟩

/-- The parts that a pipeline keeps are parts of the action. -/
theorem Ends.reaches_kept (h : Ends analyzer tree candidate ending) :
    ∀ part ∈ ending.kept, tree.Reaches candidate.chain.action part := by
  intro part hpart
  cases h with
  | @performed function action function_runs =>
    dsimp only at hpart
    -- a reference keeps nothing of the action, and a literal all of it
    split at hpart
    · simp at hpart
    · rw [List.mem_singleton] at hpart
      exact hpart ▸ .refl _
  | gathered action found mapper_maps gathers =>
    rw [List.mem_singleton] at hpart
    exact found.reaches_call.tail (by simp [found.parts_call, hpart])

/-- A plan is for the loop of the candidate. -/
theorem loop_of_eq_ok (h : Pipeline.of analyzer options tree candidate = .ok plan) :
    plan.loop = candidate.loop := by
  rw [Pipeline.of] at h
  obtain ⟨ending, -, h⟩ := bind_eq_ok.1 h
  obtain ⟨comments, -, h⟩ := bind_eq_ok.1 h
  obtain ⟨givenUp, -, h⟩ := bind_eq_ok.1 h
  cases h
  rfl

/-- **There is a plan**, and it follows the loop. -/
theorem exists_of (options : Options) (hwf : tree.WellFormed) (hloop : tree.Attached loop)
    (h : Candidate.Found analyzer tree loop candidate) :
    ∃ plan ending, Pipeline.of analyzer options tree candidate = .ok plan ∧
      endingOf analyzer options tree candidate = .ok ending ∧
      Ends analyzer tree candidate ending ∧ Follows tree candidate ending plan := by
  obtain ⟨ending, hending, hends⟩ := exists_endingOf options hwf hloop h
  have hbody := h.body_attached hloop
  have haction := h.action_attached hwf hloop
  -- all parts that are kept hang in the tree, so that the way up tells what is below them
  have hkept : ∀ part ∈ candidate.chain.conditions ++ ending.kept, tree.Attached part := by
    intro part hpart
    rcases List.mem_append.1 hpart with hpart | hpart
    · exact h.condition_attached hwf hloop hpart
    · exact haction.reaches (hends.reaches_kept part hpart)
  -- so whether a comment is given up is answered, and by the search downwards
  have hgivenUp : ∀ n ∈ tree.commentsBelow candidate.body,
      isGivenUp tree (candidate.chain.conditions ++ ending.kept) n =
        .ok (!(candidate.chain.conditions ++ ending.kept).any fun part =>
          (tree.preorder part).contains n) := by
    intro n hn
    have hlt := hwf.lt_size (hbody.reaches (Tree.mem_commentsBelow.1 hn).1)
    have hbelow : ∀ part ∈ candidate.chain.conditions ++ ending.kept,
        tree.isAncestor part n = .ok ((tree.preorder part).contains n) := fun part hpart => by
      rw [hwf.isAncestor_eq_of_attached (hkept part hpart) hlt]
      simp [List.contains_eq_mem, mem_preorder_iff]
    rw [isGivenUp, anyM_eq_ok hbelow]
    rfl
  refine ⟨⟨candidate.loop, candidate.source, candidate.param,
    candidate.chain.conditions.map (filterOf candidate.param), ending.mapper, ending.terminal,
    ending.fold, savedComments tree candidate ending,
    candidate.chain.action⟩, ending, ?_, hending, hends,
    ⟨rfl, rfl, rfl, rfl, rfl, rfl, rfl, rfl, rfl⟩⟩
  rw [Pipeline.of, hending, ok_bind, hwf.commentsIn_eq hbody, Attempt.liftM_ok, ok_bind]
  simp only [filterM_eq_ok hgivenUp, Attempt.liftM_ok, ok_bind]
  rfl

end Pipeline

end LoopToStream
