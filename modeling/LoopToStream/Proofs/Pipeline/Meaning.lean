import LoopToStream.Proofs.Loop.Meaning
import LoopToStream.Proofs.Pipeline.Plan

/-!
# A pipeline does what the loop does

A plan is read over the same meanings as the loop (`Reading`): for each element in order, the
filters are asked up to the first that does not hold, then the element is mapped, and what comes out
is handed to the end of the pipeline. A method reference is read as the call that it was made from.

* `Reading.stream` reads a plan with each value added to the collection at once.
* `Reading.gather` reads a plan as it is run: the values come out as a list, and are only added to
  the collection when there are no more elements.

The first reading does what the loop does from any state (`Pipeline.means_loop`), whatever the
conditions and values change. The second does the same where the collection is apart from the state
that the conditions and values see. Such a collection is described by `Reading.beside`.
-/

namespace LoopToStream

/-! ### Reading the loop -/

/-- The value that the statement at an id adds to the collection, if it is the action of a loop that
does so. -/
def Candidate.addsAt (candidate : Candidate) (id : NodeId) : Option NodeId :=
  match candidate.action with
  | .accumulate accumulation =>
    if id = candidate.chain.action then some accumulation.value else none
  | .perform _ => none

/-- The code that a method reference in the plan for a loop is made from. -/
def Candidate.origin (tree : Tree) (candidate : Candidate) : NodeId :=
  match candidate.action with
  | .accumulate accumulation => accumulation.value
  | .perform stmt => (Forwarding.actionExpression? tree stmt).getD stmt

theorem Candidate.origin_of_accumulate {tree : Tree} {candidate : Candidate}
    {accumulation : Accumulation} (h : candidate.action = .accumulate accumulation) :
    candidate.origin tree = accumulation.value := by
  rw [origin, h]

theorem Candidate.origin_of_perform {tree : Tree} {candidate : Candidate} {stmt : NodeId}
    (h : candidate.action = .perform stmt) :
    candidate.origin tree = (Forwarding.actionExpression? tree stmt).getD stmt := by
  rw [origin, h]

namespace Reading

variable {V S T : Type} (reading : Reading V S) (tree : Tree) (origin : NodeId)

/-- Runs the body of a loop for each of the elements. -/
def runLoop (candidate : Candidate) (xs : List V) : StateM S Unit :=
  xs.forM fun x => reading.run tree candidate.param candidate.addsAt x candidate.body

/-! ### Reading the plan -/

/-- The value of a function of a plan. A literal over statements has any. -/
def apply : StageFunction → V → StateM S V
  | .lambda param (.expr id), x => reading.eval tree param id x
  | .lambda _ (.block id), x => reading.value id x
  | .lambda _ (.wrapped id), x => reading.value id x
  | .methodRef .., x => reading.value (tree.skipParens origin) x

/-- What a function of a plan does. -/
def perform : StageFunction → V → StateM S Unit
  | .lambda _ (.expr id), x => reading.effect (tree.skipParens id) x
  | .lambda param (.block id), x => reading.run tree param (fun _ => none) x id
  | .lambda param (.wrapped id), x => reading.run tree param (fun _ => none) x id
  | .methodRef .., x => reading.effect (tree.skipParens origin) x

/-- Asks the filters in order, up to the first that does not hold. -/
def passes (x : V) : List StageFunction → StateM S Bool
  | [] => pure true
  | filter :: filters => do
    if reading.holds (← reading.apply tree origin filter x) then passes x filters else pure false

/-- The value that an element is mapped to; the element itself without a mapping. -/
def mapped : Option StageFunction → V → StateM S V
  | some mapper, x => reading.apply tree origin mapper x
  | none, x => pure x

/-- What comes out of the filters and the mapping for the element `x`. -/
def element? (plan : Pipeline) (x : V) : StateM S (Option V) := do
  if ← reading.passes tree origin x plan.filters then
    return some (← reading.mapped tree origin plan.mapper x)
  else return none

/-- What the end of a pipeline does with a value, if values are added one by one. -/
def finish : Terminal → V → StateM S Unit
  | .forEach function, y => reading.perform tree origin function y
  | .collect _, y => reading.append y
  | .addAll _, y => reading.append y

/-- What a plan does for the element `x`. -/
def stream (plan : Pipeline) (x : V) : StateM S Unit := do
  match ← reading.element? tree origin plan x with
  | some y => reading.finish tree origin plan.terminal y
  | none => return ()

/-- What a plan does for each of the elements. -/
def runPlan (plan : Pipeline) (xs : List V) : StateM S Unit :=
  xs.forM (reading.stream tree origin plan)

/-- All the values that come out for the elements. -/
def gather (plan : Pipeline) (xs : List V) : StateM S (List V) :=
  xs.filterMapM (reading.element? tree origin plan)

/-! ### A collection apart -/

/-- Work on a state, with a collection beside it. -/
def aside {α : Type} (m : StateM S α) : StateM (S × T) α := fun st =>
  let done := m st.1
  (done.1, done.2, st.2)

/-- The same meanings with a collection beside the state, to which values are added. -/
def beside (add : T → V → T) : Reading V (S × T) where
  value id x := aside (reading.value id x)
  holds := reading.holds
  effect id x := aside (reading.effect id x)
  append y := modify fun st => (st.1, add st.2 y)

end Reading

/-- What a collection is at the end, given what it was before and all that was gathered: a new one
has only what was gathered. -/
def Terminal.collected {V T : Type} (add : T → V → T) (empty before : T) (ys : List V) :
    Terminal → T
  | .collect _ => ys.foldl add empty
  | _ => ys.foldl add before

/-! ### Stage by stage -/

namespace Pipeline

variable {V S T : Type} {reading : Reading V S} {analyzer : Analyzer} {tree : Tree}
  {candidate : Candidate} {ending : Ending} {plan : Pipeline} {param : VarId}
  {origin value action : NodeId} {function : StageFunction} {mapper : Option StageFunction} {x : V}

/-- The filters of a plan ask the conditions of the guards. -/
theorem passes_filters (reading : Reading V S) (x : V) (conds : List NodeId) :
    reading.passes tree origin x (conds.map (filterOf param)) =
      reading.allHold tree param x conds := by
  induction conds with
  | nil => rfl
  | cons cond conds ih =>
    rw [List.map_cons, Reading.passes, Reading.allHold, ih]
    rfl

/-- The name of the variable is the element. -/
theorem eval_of_isParam (h : Forwarding.isParam tree param value = true) :
    reading.eval tree param value x = pure x := by
  obtain ⟨name, hkind⟩ := Forwarding.isParam_eq_true h
  rw [Reading.eval, hkind]
  exact if_pos rfl

/-- A call is not the name of a variable. -/
theorem eval_of_reduced {qualifier : Qualifier} {method : String}
    (h : Forwarding.Reduced tree param (tree.skipParens value) qualifier method) :
    reading.eval tree param value x = reading.value (tree.skipParens value) x := by
  cases h with
  | own here => rw [Reading.eval, here]
  | bound here => rw [Reading.eval, here]
  | element here => rw [Reading.eval, here]
  | creation here => rw [Reading.eval, here]

/-- **The mapping gives the value that is added.** -/
theorem Maps.mapped_eq (h : Maps analyzer tree param value mapper) (reading : Reading V S) (x : V) :
    reading.mapped tree value mapper x = reading.eval tree param value x := by
  cases h with
  | element is_param => rw [eval_of_isParam is_param, Reading.mapped]
  | literal => rfl
  | reference _ _ form => rw [eval_of_reduced form, Reading.mapped, Reading.apply]

/-- **The function does what the action does.** -/
theorem Runs.perform_eq (h : Runs analyzer tree param action function) (hg : tree.Grounded action)
    (reading : Reading V S) (x : V) :
    reading.perform tree ((Forwarding.actionExpression? tree action).getD action) function x =
      reading.run tree param (fun _ => none) x action := by
  cases h with
  | expression here => rw [hg.run_eq, Reading.runLayer, here, Reading.perform]
  | block => rfl
  | statement => rfl
  | reference here _ form =>
    rw [hg.run_eq, Reading.runLayer, here, Reading.perform, Forwarding.actionExpression?,
      Tree.stmt?_eq_some.2 here]
    rfl

/-! ### The plan as a whole -/

/-- What comes out for an element, in terms of the loop. -/
theorem Follows.element?_eq (h : Follows tree candidate ending plan) (reading : Reading V S)
    (origin : NodeId) (x : V) :
    reading.element? tree origin plan x = (do
      if ← reading.allHold tree candidate.param x candidate.chain.conditions then
        return some (← reading.mapped tree origin ending.mapper x)
      else return none) := by
  rw [Reading.element?, h.filters_eq, passes_filters, h.mapper_eq]

/-- **One element.** The plan does for each element what the body of the loop does. -/
theorem Follows.stream_eq (h : Follows tree candidate ending plan) {loop : NodeId}
    (hwf : tree.WellFormed) (hloop : tree.Attached loop)
    (hfound : Candidate.Found analyzer tree loop candidate)
    (hends : Ends analyzer tree candidate ending) (reading : Reading V S) (x : V) :
    reading.stream tree (candidate.origin tree) plan x =
      reading.run tree candidate.param candidate.addsAt x candidate.body := by
  have hg := hwf.grounded (hfound.action_attached hwf hloop)
  have hadds : ∀ n, n ≠ candidate.chain.action → candidate.addsAt n = none := by
    intro n hn
    unfold Candidate.addsAt
    split
    · exact if_neg hn
    · rfl
  -- the body asks the guards in order, and then runs the action
  have hbody : reading.run tree candidate.param candidate.addsAt x candidate.body = (do
      if ← reading.allHold tree candidate.param x candidate.chain.conditions then
        reading.run tree candidate.param candidate.addsAt x candidate.chain.action) :=
    (hfound.guarded hwf hloop).run_eq hwf (hfound.body_attached hloop)
    (hwf.fits loop _ hloop hfound.kind?_eq .statement _ (by simp [Kind.slots, Stmt.slots])) hadds
  rw [hbody, Reading.stream, h.element?_eq, h.terminal_eq, bind_assoc]
  refine bind_congr fun holds => ?_
  cases holds with
  | false => simp
  | true =>
    simp only [if_true]
    cases hends with
    | performed action function_runs =>
      -- nothing is added: the function runs the action itself
      have hnone : candidate.addsAt = fun _ => none := by
        funext n
        rw [Candidate.addsAt, action]
      rw [Reading.mapped, pure_bind, pure_bind, Candidate.origin_of_perform action, hnone]
      exact function_runs.perform_eq hg reading x
    | @gathered accumulation mapper terminal fold action found mapper_maps gathers =>
      -- the value is what the mapping yields, and the end of the stream appends it
      have hadd : candidate.addsAt candidate.chain.action = some accumulation.value := by
        rw [Candidate.addsAt, action]
        exact if_pos rfl
      have hfinish : ∀ y, reading.finish tree accumulation.value terminal y = reading.append y := by
        cases gathers <;> exact fun _ => rfl
      rw [Candidate.origin_of_accumulate action, mapper_maps.mapped_eq, hg.run_eq,
        Reading.runLayer, hadd, bind_assoc]
      refine bind_congr fun y => ?_
      rw [pure_bind]
      exact hfinish y

/-- A method reference in a plan is made from the code that it is read as. -/
theorem Ends.reduced (h : Ends analyzer tree candidate ending) {qualifier : Qualifier}
    {method : String} (href : ending.mapper = some (.methodRef qualifier method) ∨
      ending.terminal = .forEach (.methodRef qualifier method)) :
    Forwarding.reduce? analyzer tree candidate.param (candidate.origin tree) =
      .ok (some (.methodRef qualifier method)) := by
  -- a loop that runs its action has no mapper, and one that gathers ends with no function
  cases h with
  | performed action function_runs =>
    rcases href with href | href
    · cases href
    · cases href
      cases function_runs with
      | reference here answer form =>
        rw [Candidate.origin_of_perform action, Forwarding.actionExpression?,
          Tree.stmt?_eq_some.2 here]
        exact answer
  | gathered action found mapper_maps gathers =>
    rw [Candidate.origin_of_accumulate action]
    rcases href with href | href
    · cases href
      cases mapper_maps with
      | reference not_param answer form => exact answer
    · cases gathers <;> cases href

/-! ### A collection apart -/

section Apart

variable {add : T → V → T} {empty before : T} {s : S}

theorem bind_apply {α β : Type} (m : StateM S α) (f : α → StateM S β) (s : S) :
    (m >>= f) s = f (m s).1 (m s).2 := rfl

theorem aside_bind {α β : Type} (m : StateM S α) (f : α → StateM S β) :
    (Reading.aside (m >>= f) : StateM (S × T) β) = Reading.aside m >>= fun a =>
      Reading.aside (f a) :=
  rfl

theorem eval_beside (reading : Reading V S) (add : T → V → T) (param : VarId) (id : NodeId)
    (x : V) :
    (reading.beside add).eval tree param id x = Reading.aside (reading.eval tree param id x) := by
  unfold Reading.eval
  split
  · split <;> rfl
  · rfl

theorem apply_beside (reading : Reading V S) (add : T → V → T) (function : StageFunction) (x : V) :
    (reading.beside add).apply tree origin function x =
      Reading.aside (reading.apply tree origin function x) := by
  cases function with
  | methodRef qualifier method => rfl
  | lambda param body =>
    cases body with
    | expr id => exact eval_beside reading add param id x
    | block id => rfl
    | wrapped id => rfl

theorem passes_beside (reading : Reading V S) (add : T → V → T) (x : V)
    (filters : List StageFunction) :
    (reading.beside add).passes tree origin x filters =
      Reading.aside (reading.passes tree origin x filters) := by
  induction filters with
  | nil => rfl
  | cons filter filters ih =>
    rw [Reading.passes, Reading.passes, apply_beside, ih, aside_bind]
    refine bind_congr fun value => ?_
    change (if reading.holds value then _ else _) = _
    split <;> rfl

/-- What comes out for an element does not depend on a collection that is apart. -/
theorem element?_beside (reading : Reading V S) (add : T → V → T) (plan : Pipeline) (x : V) :
    (reading.beside add).element? tree origin plan x =
      Reading.aside (reading.element? tree origin plan x) := by
  rw [Reading.element?, Reading.element?, passes_beside, aside_bind]
  refine bind_congr fun passed => ?_
  -- the filters ask the reading, which knows nothing of the collection apart
  cases passed with
  | false => rfl
  | true =>
    simp only [if_true]
    cases hmapper : plan.mapper with
    | none => rfl
    | some mapper =>
      rw [Reading.mapped, Reading.mapped, apply_beside, aside_bind]
      rfl

/-- One element adds the value that comes out for it, if any. -/
theorem stream_beside (hgathering : plan.terminal.isCollecting = true) (reading : Reading V S)
    (add : T → V → T) (x : V) (s : S) (before : T) :
    (reading.beside add).stream tree origin plan x (s, before) =
      ((), (reading.element? tree origin plan x s).2,
        (reading.element? tree origin plan x s).1.elim before (add before)) := by
  rw [Reading.stream, element?_beside, bind_apply]
  -- with the element at hand, what is left is the end of the pipeline
  change (match (reading.element? tree origin plan x s).1 with
    | some y => (reading.beside add).finish tree origin plan.terminal y
    | none => pure () : StateM (S × T) Unit) ((reading.element? tree origin plan x s).2, before) = _
  cases (reading.element? tree origin plan x s).1 with
  | none => rfl
  | some y =>
    cases hterminal : plan.terminal with
    | forEach function => simp [hterminal, Terminal.isCollecting] at hgathering
    | collect collector => rfl
    | addAll receiver => rfl

/-- **Adding at once and adding at the end.** Values that are added one by one to a collection apart
make up the same as all values gathered first. -/
theorem runPlan_beside (hgathering : plan.terminal.isCollecting = true) (reading : Reading V S)
    (add : T → V → T) (xs : List V) (s : S) (before : T) :
    (reading.beside add).runPlan tree origin plan xs (s, before) =
      ((), (reading.gather tree origin plan xs s).2,
        (reading.gather tree origin plan xs s).1.foldl add before) := by
  induction xs generalizing s before with
  | nil => rfl
  | cons x xs ih =>
    -- the elements go through one after the other, so the first acts on what the rest begin with
    have hrun : (reading.beside add).runPlan tree origin plan (x :: xs) (s, before) =
        (reading.beside add).runPlan tree origin plan xs
          ((reading.beside add).stream tree origin plan x (s, before)).2 := rfl
    rw [hrun, stream_beside hgathering, ih, Reading.gather, Reading.gather, List.filterMapM_cons,
      bind_apply]
    cases (reading.element? tree origin plan x s).1 <;> rfl

end Apart

/-! ### The same meaning -/

/-- **A pipeline does what the loop does.** For a loop that passes every check there is a plan, and
whatever the parts of the loop mean, for all elements and from every state:

* running the body of the loop for each element does the same as the plan with each value added at
  once;
* if values are added to a collection apart from the state, running the body of the loop does the
  same as gathering all values of the plan and then adding them, or as making a new collection of
  them, if that is what the collection was before the loop.

The method references of the plan are read as the code that they were made from. -/
theorem means_loop (analyzer : Analyzer) (options : Options) {tree : Tree} {loop : NodeId}
    {candidate : Candidate} (hwf : tree.WellFormed) (hattached : tree.isAttached loop = .ok true)
    (hcandidate : Candidate.of analyzer tree loop = .ok candidate) :
    ∃ plan, Pipeline.of analyzer options tree candidate = .ok plan ∧
      (∀ qualifier method,
        plan.mapper = some (.methodRef qualifier method) ∨
          plan.terminal = .forEach (.methodRef qualifier method) →
        Forwarding.reduce? analyzer tree candidate.param (candidate.origin tree) =
          .ok (some (.methodRef qualifier method))) ∧
      ∀ {V S : Type} (reading : Reading V S) (xs : List V) (s : S),
        reading.runLoop tree candidate xs s =
          reading.runPlan tree (candidate.origin tree) plan xs s ∧
        (candidate.kind = .accumulation →
          ∀ {T : Type} (add : T → V → T) (empty before : T),
            (plan.fold.isSome → before = empty) →
            let gathered := reading.gather tree (candidate.origin tree) plan xs s
            (reading.beside add).runLoop tree candidate xs (s, before) =
              ((), gathered.2, plan.terminal.collected add empty before gathered.1)) := by
  have hfound := Candidate.found_of_eq_ok hcandidate
  have hloop : tree.Attached loop :=
    (hwf.isAttached_eq_true (Tree.lt_size_of_kind? hfound.kind?_eq)).1 hattached
  obtain ⟨plan, ending, hplan, -, hends, hfollows⟩ := exists_of options hwf hloop hfound
  -- the loop and the stream go through the same elements in the same order
  have hruns : ∀ {V S : Type} (reading : Reading V S) (xs : List V),
      reading.runLoop tree candidate xs = reading.runPlan tree (candidate.origin tree) plan xs :=
    fun reading xs => forM_congr fun x _ =>
      (hfollows.stream_eq hwf hloop hfound hends reading x).symm
  refine ⟨plan, hplan, fun qualifier method href => hends.reduced ?_, fun reading xs s =>
    ⟨congrFun (hruns reading xs) s, fun hkind T add empty before hfresh => ?_⟩⟩
  · rwa [← hfollows.mapper_eq, ← hfollows.terminal_eq]
  · dsimp only
    rw [hruns]
    cases hends with
    | performed action _ => simp [Candidate.kind, action, LoopAction.kind] at hkind
    | gathered action found mapper_maps gathers =>
      -- the collection starts empty where the pipeline makes it, and is kept where it adds to it
      have hterminal := hfollows.terminal_eq
      have hfold := hfollows.fold_eq
      dsimp only at hterminal hfold
      cases gathers with
      | appended =>
        rw [runPlan_beside (by rw [hterminal]; rfl), hterminal]
        rfl
      | folded target site =>
        rw [runPlan_beside (by rw [hterminal]; rfl), hterminal, hfresh (by rw [hfold]; rfl)]
        rfl

/-- The statements `List ys = new ArrayList(); for (String x : xs) if (x.isEmpty()) ys.add(x);`, as
a block. -/
def collectingLoop : Tree where
  nodes := #[
    ⟨.expr (.create ⟨.simple "ArrayList", [], none⟩), some ⟨1⟩, Tree.placeOf 0⟩,
    ⟨.stmt (.declare ⟨2⟩ (some ⟨0⟩)), some ⟨11⟩, Tree.placeOf 1⟩,
    ⟨.expr (.name "xs" (some ⟨0⟩)), some ⟨10⟩, Tree.placeOf 2⟩,
    ⟨.expr (.name "x" (some ⟨1⟩)), some ⟨4⟩, Tree.placeOf 3⟩,
    ⟨.expr (.call ⟨some ⟨3⟩, "isEmpty", [], some ⟨0⟩⟩), some ⟨9⟩, Tree.placeOf 4⟩,
    ⟨.expr (.name "ys" (some ⟨2⟩)), some ⟨7⟩, Tree.placeOf 5⟩,
    ⟨.expr (.name "x" (some ⟨1⟩)), some ⟨7⟩, Tree.placeOf 6⟩,
    ⟨.expr (.call ⟨some ⟨5⟩, "add", [⟨6⟩], some ⟨1⟩⟩), some ⟨8⟩, Tree.placeOf 7⟩,
    ⟨.stmt (.expr ⟨7⟩), some ⟨9⟩, Tree.placeOf 8⟩,
    ⟨.stmt (.branch (some ⟨4⟩) (some ⟨8⟩) none), some ⟨10⟩, Tree.placeOf 9⟩,
    ⟨.stmt (.forEach ⟨⟨1⟩, some ⟨2⟩, some ⟨9⟩⟩), some ⟨11⟩, Tree.placeOf 10⟩,
    ⟨.stmt (.block [⟨1⟩, ⟨10⟩]), none, Tree.placeOf 11⟩]
  vars := #[⟨"xs", .simple "List", .parameter, false⟩,
    ⟨"x", .simple "String", .loopParameter, false⟩,
    ⟨"ys", .simple "List", .localVariable, false⟩]
  root := ⟨11⟩
  scope := .unknown
  revision := 0

/-- Where `x.isEmpty()` and `ys.add(x)` are known and throw nothing. -/
def knowingAdd : Analyzer :=
  let isEmpty : Signature := ⟨"String", "isEmpty", [], 0, [], some (.simple "boolean"), false⟩
  let add : Signature := ⟨"List", "add", [.simple "Object"], 0, [], some (.simple "boolean"), false⟩
  ⟨⟨.standard, #[isEmpty, add], []⟩, Options.standard.flow⟩

/-- Elements are numbers, an expression adds the element to what has been counted, and its value is
true if the count is even then. -/
def counting : Reading Nat Nat where
  value _ x := fun s => (s + x, s + x)
  holds y := y % 2 = 0
  effect _ _ := pure ()
  append _ := pure ()

/-- What the pipeline gathers is what the loop adds. -/
theorem means_collectingLoop :
    ∃ candidate plan, Candidate.of knowingAdd collectingLoop ⟨10⟩ = .ok candidate ∧
      Pipeline.of knowingAdd .standard collectingLoop candidate = .ok plan ∧
      plan.fold = some ⟨⟨1⟩, ⟨0⟩⟩ ∧
      counting.gather collectingLoop (candidate.origin collectingLoop) plan [1, 2, 3, 4, 5] 0 =
        ([3, 4], 15) := by
  -- what the loop does, and how its plan ends
  obtain ⟨candidate, hcandidate, hkind, hloop, plan, hplan, hfold, hterminal⟩ :
      ∃ candidate, Candidate.of knowingAdd collectingLoop ⟨10⟩ = .ok candidate ∧
        candidate.kind = .accumulation ∧
        (counting.beside fun ys y => ys ++ [y]).runLoop collectingLoop candidate [1, 2, 3, 4, 5]
          (0, []) = ((), 15, [3, 4]) ∧
        ∃ plan, Pipeline.of knowingAdd .standard collectingLoop candidate = .ok plan ∧
          plan.fold = some ⟨⟨1⟩, ⟨0⟩⟩ ∧ plan.terminal = .collect .list :=
    ⟨_, by cbv, by cbv, by cbv, _, by cbv, by cbv, by cbv⟩
  have hwf : collectingLoop.WellFormed := .of_isInOrder (by decide)
  obtain ⟨plan', hplan', -, hmeans⟩ := means_loop knowingAdd .standard hwf (by cbv) hcandidate
  obtain rfl := Except.ok.inj (hplan'.symm.trans hplan)
  have hsame :=
    (hmeans counting [1, 2, 3, 4, 5] 0).2 hkind (fun ys y => ys ++ [y]) [] [] fun _ => rfl
  rw [hloop, hterminal] at hsame
  obtain ⟨hcount, hgathered⟩ := Prod.mk.inj (congrArg Prod.snd hsame)
  -- collecting into a list gives the values in the order in which they come
  have hgathered : [3, 4] = (counting.gather collectingLoop (candidate.origin collectingLoop) plan'
      [1, 2, 3, 4, 5] 0).1 := by
    simpa [Terminal.collected, ← List.flatMap_def] using hgathered
  exact ⟨candidate, plan', hcandidate, hplan, hfold, Prod.ext hgathered.symm hcount.symm⟩

end Pipeline

end LoopToStream
