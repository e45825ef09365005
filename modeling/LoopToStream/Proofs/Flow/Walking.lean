import LoopToStream.Flow
import LoopToStream.Proofs.Tree.Grounded

/-!
# Walks with a stack

A subtree is walked through with a stack of the nodes that are still to be visited: the node on top
is taken off, and its parts are put on, the first of them on top. There are two such loops. One of
them lists the nodes (`Tree.visit`) and may be kept from going on from some of them. The other one
asks a question at each node (`Flow.turn`), does not go on from function literals and method
references unless it is meant to, and counts the nodes, so that it may be given up. Each of them
goes on from the node where it starts in any case.

Here it is shown that the lists and queries, which are defined by recursion, are what these loops
come to:

* `Grounded.iterate_visit` — the traversals come to `Tree.preorderWhere`;
* `Flow.iterate_turn` — the metered walks come to `Flow.look` along the same nodes in the same
  order.

`Grounded.loopsAgree` has both of them side by side.

A stack stands for all that is visited from the nodes on it, which is the agenda (`Tree.agenda`).
Both loops take the first node off the agenda in each turn and leave the others as they are
(`Tree.agenda_cons`). That is the invariant, and it says how many turns there are as well.
-/

namespace LoopToStream

variable {tree : Tree} {a id top : NodeId} {stack : List NodeId} {enter : NodeId → Bool}

/-! ### The agenda -/

namespace Tree

/-- The parts that a walk from `top` goes on to: all of them, if the node is `top` or may be
entered. -/
def entered (tree : Tree) (enter : NodeId → Bool) (top id : NodeId) : List NodeId :=
  if id = top ∨ enter id then tree.parts id else []

theorem entered_subset : tree.entered enter top id ⊆ tree.parts id := by
  intro c hc
  unfold entered at hc
  split at hc
  · exact hc
  · cases hc

/-- All that is visited from a stack of nodes, the one on top first. -/
def agenda (tree : Tree) (enter : NodeId → Bool) (top : NodeId) (stack : List NodeId) :
    List NodeId :=
  stack.flatMap fun id => depthFirst (tree.entered enter top) tree.pathBound id []

/-- **A node is visited, and then what has been put on the stack in its place.** -/
theorem agenda_cons (hid : tree.Grounded id) :
    tree.agenda enter top (id :: stack) = id ::
      tree.agenda enter top (tree.entered enter top id ++ stack) := by
  simp only [agenda, List.flatMap_cons, List.flatMap_append]
  rw [hid.depthFirst_eq fun _ => entered_subset, List.cons_append]

/-- At the beginning there is the one node. -/
theorem agenda_start : tree.agenda enter top [top] = tree.preorderWhere enter top := by
  rw [agenda, List.flatMap_singleton]
  rfl

/-- What is put on the stack is as finite as what has been taken off. -/
theorem grounded_next (h : ∀ n ∈ id :: stack, tree.Grounded n) :
    ∀ n ∈ tree.entered enter top id ++ stack, tree.Grounded n := by
  obtain ⟨hid, hstack⟩ := List.forall_mem_cons.1 h
  exact List.forall_mem_append.2 ⟨fun n hn => hid.of_mem_parts (entered_subset hn), hstack⟩

end Tree

/-! ### Traversals -/

/-- How far a traversal has come: what has been visited, in this order, and the stack. -/
structure Traversal where
  visited : List NodeId
  stack : List NodeId
deriving DecidableEq, Repr

/-- **One turn of a traversal** from `top`. Nothing is put on the stack for a node that may not be
entered. -/
def Tree.visit (tree : Tree) (enter : NodeId → Bool) (top : NodeId) : Traversal → Traversal
  | ⟨visited, []⟩ => ⟨visited, []⟩
  | ⟨visited, id :: stack⟩ =>
    if id ≠ top ∧ enter id = false then ⟨visited ++ [id], stack⟩
    else ⟨visited ++ [id], tree.parts id ++ stack⟩

namespace Tree

theorem visit_cons (visited : List NodeId) :
    tree.visit enter top ⟨visited, id :: stack⟩ =
      ⟨visited ++ [id], tree.entered enter top id ++ stack⟩ := by
  rw [visit, entered]
  by_cases htop : id = top
  · simp [htop]
  · cases henter : enter id <;> simp [htop]

/-- With enough turns all of the agenda is visited. By induction on the turns. -/
theorem iterate_visit_agenda {turns : Nat} (visited : List NodeId)
    (hstack : ∀ n ∈ stack, tree.Grounded n) (h : (tree.agenda enter top stack).length ≤ turns) :
    (tree.visit enter top)^[turns] ⟨visited, stack⟩ =
      ⟨visited ++ tree.agenda enter top stack, []⟩ := by
  induction turns generalizing visited stack with
  | zero =>
    have hdone : tree.agenda enter top stack = [] := List.eq_nil_of_length_eq_zero (Nat.le_zero.1 h)
    cases stack with
    | nil => simp [agenda]
    | cons id stack =>
      -- a node on the stack would be on the agenda
      rw [agenda_cons (hstack id (by simp))] at hdone
      cases hdone
  | succ turns ih =>
    rw [Function.iterate_succ_apply]
    cases stack with
    | nil => exact ih visited hstack (Nat.zero_le _)
    | cons id stack =>
      have hid := hstack id (by simp)
      -- a turn takes the first node off the agenda
      rw [agenda_cons hid, List.length_cons] at h
      rw [visit_cons, ih _ (grounded_next hstack) (Nat.le_of_succ_le_succ h), agenda_cons hid,
        List.append_assoc]
      rfl

/-- **Traversals come to the preorder**, after as many turns as there are nodes in it. -/
theorem Grounded.iterate_visit (h : tree.Grounded top) {turns : Nat}
    (hturns : (tree.preorderWhere enter top).length ≤ turns) :
    (tree.visit enter top)^[turns] ⟨[], [top]⟩ = ⟨tree.preorderWhere enter top, []⟩ := by
  rw [← agenda_start] at hturns ⊢
  exact iterate_visit_agenda [] (by simpa using h) hturns

end Tree

/-! ### Metered walks -/

/-- How far a metered walk has come: it is over, or there is a stack of nodes to go on with, and
what has been found at the nodes so far, which have been counted. -/
inductive Walk (α : Type) where
  | over (answer : Attempt AnalysisError (List α))
  | under (found : List α) (visited : Nat) (stack : List NodeId)

namespace Flow

variable {α : Type} {flow : Flow} {see : NodeId → Lookup (List α)} {deep : Bool}

/-- Another node is counted, if it may be looked at. -/
def tick (flow : Flow) (visited : Nat) : Attempt AnalysisError Nat :=
  if flow.canceled then refuse .canceled
  else if flow.exhausted (visited + 1) then refuse .timeout
  else return visited + 1

/-- **One turn of a metered walk** from `top`: the node is counted, looked at, and gone on from,
unless it is a closure below `top` and the walk is not to be deep. -/
def turn (flow : Flow) (tree : Tree) (see : NodeId → Lookup (List α)) (deep : Bool) (top : NodeId) :
    Walk α → Walk α
  | .over answer => .over answer
  | .under found _ [] => .over (return found)
  | .under found visited (id :: stack) =>
    let here : Attempt AnalysisError (Nat × List α × Kind NodeId) := do
      let visited ← flow.tick visited
      let seen ← see id
      return (visited, seen, ← tree.kind id)
    match here with
    | .error refusal => .over (.error refusal)
    | .ok (visited, seen, kind) =>
      if id ≠ top ∧ tree.isClosure id = true ∧
        deep = false then .under (found ++ seen) visited stack
      else .under (found ++ seen) visited (kind.children ++ stack)

/-- What such a walk may enter. -/
def enters (tree : Tree) (deep : Bool) (id : NodeId) : Bool := deep || !tree.isClosure id

theorem look_cons (before : Nat) (rest : List NodeId) :
    flow.look tree see before (id :: rest) = (do
      let counted ← flow.tick before
      let seen ← see id
      discard (tree.node id)
      return seen ++ (← flow.look tree see counted rest)) := by
  rw [look, tick]
  split
  · rfl
  · split
    · rfl
    · rfl

/-- Where the node may be looked at and there is something to be seen. -/
theorem look_cons_of_ok {before counted : Nat} {seen : List α}
    (htick : flow.tick before = .ok counted) (hsee : see id = .ok seen) (hid : id.index < tree.size)
    (rest : List NodeId) :
    flow.look tree see before (id :: rest) = (seen ++ ·) <$> flow.look tree see counted rest := by
  obtain ⟨node, -, hnode⟩ := Tree.node_of_lt hid
  rw [look_cons, htick, hsee, hnode]
  show (flow.look tree see counted rest >>= fun others => pure (seen ++ others)) = _
  cases flow.look tree see counted rest <;> rfl

theorem iterate_over (turns : Nat) (answer : Attempt AnalysisError (List α)) :
    (flow.turn tree see deep top)^[turns] (.over answer) = .over answer := by
  induction turns with
  | zero => rfl
  | succ turns ih => rw [Function.iterate_succ_apply, turn, ih]

/-- **With enough turns the agenda is looked at**, or as much of it as may be. By induction on the
turns, with what has been found and counted so far. -/
theorem iterate_turn_agenda {turns : Nat} (found : List α) (visited : Nat)
    (hstack : ∀ n ∈ stack, tree.Grounded n)
    (h : (tree.agenda (enters tree deep) top stack).length < turns) :
    (flow.turn tree see deep top)^[turns] (.under found visited stack) =
      .over ((found ++ ·) <$> flow.look tree see visited
        (tree.agenda (enters tree deep) top stack)) := by
  induction turns generalizing found visited stack with
  | zero => exact absurd h (Nat.not_lt_zero _)
  | succ turns ih =>
    rw [Function.iterate_succ_apply]
    cases stack with
    | nil =>
      rw [turn, iterate_over]
      simp [Tree.agenda, look]
    | cons id stack =>
      have hid := hstack id (by simp)
      obtain ⟨kind, hkind⟩ := hid.exists_kind
      rw [Tree.agenda_cons hid, List.length_cons] at h
      rw [Tree.agenda_cons hid]
      cases htick : flow.tick visited with
      | error refusal =>
        -- the node may not be looked at, neither here nor there
        have hover : flow.turn tree see deep top (.under found visited (id :: stack)) =
            .over (.error refusal) := by
          simp only [turn, htick, error_bind]
        rw [hover, iterate_over, look_cons, htick]
        rfl
      | ok counted =>
        cases hsee : see id with
        | error lost =>
          -- the question about the node gets lost
          have hover : flow.turn tree see deep top (.under found visited (id :: stack)) =
              .over (liftM (.error lost : Lookup (List α))) := by
            simp only [turn, htick, hsee, ok_bind]
            rfl
          rw [hover, iterate_over, look_cons, htick, hsee]
          rfl
        | ok seen =>
          have hon : flow.turn tree see deep top (.under found visited (id :: stack)) =
              .under (found ++ seen) counted (tree.entered (enters tree deep) top id ++ stack) := by
            simp only [turn, htick, hsee, Tree.kind_of_kind? hkind, Attempt.liftM_ok, ok_bind,
              pure_eq_ok]
            rw [← Tree.parts_eq_children hkind, Tree.entered, enters]
            -- the loop passes over a closure below the top, which is what may not be entered
            by_cases htop : id = top
            · simp [htop]
            · cases deep <;> cases tree.isClosure id <;> simp [htop]
          rw [hon, ih _ _ (Tree.grounded_next hstack) (Nat.lt_of_succ_lt_succ h),
            look_cons_of_ok htick hsee hid.lt_size, ← comp_map]
          -- what is found here stands in front of what is found from here on
          have happend : ((found ++ seen) ++ ·) = (found ++ ·) ∘ (seen ++ ·) := by
            funext rest
            exact List.append_assoc _ _ _
          rw [happend]

/-- **Metered walks come to the queries** along the agenda, after one turn more than there are nodes
on it. -/
theorem iterate_turn (h : tree.Grounded top) (flow : Flow) (see : NodeId → Lookup (List α))
    (deep : Bool) :
    (flow.turn tree see deep top)^[(tree.agenda (enters tree deep) top [top]).length + 1]
        (.under [] 0 [top]) =
      .over (flow.look tree see 0 (tree.agenda (enters tree deep) top [top])) := by
  rw [iterate_turn_agenda [] 0 (by simpa using h) (Nat.lt_succ_self _)]
  simp

end Flow

/-! ### The same way -/

namespace Tree

/-- Where everything may be entered, everything is listed. -/
theorem preorderWhere_true : tree.preorderWhere (fun _ => true) top = tree.preorder top := by
  rw [preorderWhere, preorder]
  congr 1
  funext id
  simp

/-- **The loops go the same way** from `top`. A traversal lists the nodes in as many turns as they
are, and in one turn more a metered walk comes to the query along them: `outside` are those that are
visited without going into function literals and method references below `top`, and `below` are all
of them. -/
structure LoopsAgree (tree : Tree) (top : NodeId) (outside below : List NodeId) : Prop where
  list_outside :
    (tree.visit (fun id => !tree.isClosure id) top)^[outside.length] ⟨[], [top]⟩ = ⟨outside, []⟩
  list_below : (tree.visit (fun _ => true) top)^[below.length] ⟨[], [top]⟩ = ⟨below, []⟩
  query_outside : ∀ {α : Type} (flow : Flow) (see : NodeId → Lookup (List α)),
    (flow.turn tree see false top)^[outside.length + 1] (.under [] 0 [top]) =
      .over (flow.queryOutsideClosures tree see top)
  query_below : ∀ {α : Type} (flow : Flow) (see : NodeId → Lookup (List α)),
    (flow.turn tree see true top)^[below.length + 1] (.under [] 0 [top]) =
      .over (flow.query tree see top)

/-- The loops come to an end on finite code, and to what is defined by recursion. -/
theorem Grounded.loopsAgree (h : tree.Grounded top) : tree.LoopsAgree top
    (tree.preorderWhere (fun id => !tree.isClosure id) top) (tree.preorder top) where
  list_outside := h.iterate_visit le_rfl
  list_below := by
    rw [← preorderWhere_true]
    exact h.iterate_visit le_rfl
  query_outside flow see := by
    -- what is on the agenda in the end is the preorder of the nodes that may be entered
    have hagenda : tree.agenda (Flow.enters tree false) top [top] =
        tree.preorderWhere (fun id => !tree.isClosure id) top := agenda_start
    have hwalk := Flow.iterate_turn h flow see false
    rw [hagenda] at hwalk
    exact hwalk
  query_below flow see := by
    have hagenda : tree.agenda (Flow.enters tree true) top [top] = tree.preorder top :=
      agenda_start.trans preorderWhere_true
    have hwalk := Flow.iterate_turn h flow see true
    rw [hagenda] at hwalk
    exact hwalk

end Tree

end LoopToStream
