import LoopToStream.Proofs.Loop.Candidate
import LoopToStream.Proofs.Loop.Chain
import LoopToStream.Proofs.Tree.Ancestors
import LoopToStream.Proofs.Tree.Mentions

/-!
# The parameter of a loop

`Tree.Owns` says that a loop has its parameter for itself: nothing else in the tree declares it, and
nothing outside of the body refers to it. What a loop adds to does not mention the parameter then
(`Accumulation.Found.not_mentions`), although it stands in the body. It has to mean the same object
each time that the loop around the action goes round, which is this loop
(`Guarded.enclosingForEach?_eq`), and the parameter is declared by it.
-/

namespace LoopToStream

variable {tree : Tree} {id action q : NodeId} {loop : ForEach NodeId} {conds : List NodeId}
    {v : VarId}

namespace Tree

/-- **A loop has its parameter for itself.** -/
structure Owns (tree : Tree) (id : NodeId) (loop : ForEach NodeId) : Prop where
  here : tree.forEach? id = some loop
  kind : ∃ x, tree.var loop.var = .ok x ∧ x.kind = .loopParameter
  declares : ∀ n, tree.Attached n → (tree.kind? n).any (Tree.declares loop.var) = true → n = id
  refers : ∀ n, tree.Attached n → (tree.expr? n).bind Expr.var? = some loop.var →
    ∃ body ∈ loop.body, tree.Reaches body n

/-- What is around the action in its chain of guards is no loop. -/
theorem Guarded.enclosingForEach?_eq (h : tree.Guarded id conds action) (hwf : tree.WellFormed)
    (hid : tree.Attached id) : tree.enclosingForEach? action = tree.enclosingForEach? id := by
  -- a block or a branch is passed on the way up
  have hpass : ∀ {p c : NodeId} {s : Stmt NodeId}, tree.Attached p → c ∈ tree.parts p →
      tree.kind? p = some (.stmt s) → s.forEach? = none →
        tree.enclosingForEach? c = tree.enclosingForEach? p := fun hp hc hkind hno => by
    rw [enclosingForEach?, hwf.climb_part hp hc, if_neg]
    · rfl
    · simp [forEach?, stmt?_eq_some.2 hkind, hno]
  induction h with
  | @wrapped id inner conds action only below ih =>
    obtain ⟨stmts, hkind, -⟩ := onlyStatement?_eq_some only
    have hinner := mem_parts_of_onlyStatement? only
    rw [ih (hid.of_mem hinner), hpass hid hinner hkind rfl]
  | @guard id cond branch conds action guard below ih =>
    have hbranch : branch ∈ tree.parts id := by simp [parts_of_guard? guard]
    rw [ih (hid.of_mem hbranch), hpass hid hbranch (guard?_eq_some guard) rfl]
  | bare => rfl

end Tree

namespace Accumulation

/-! ### Collections that stay the same -/

/-- The parameter is not declared outside of its loop. -/
theorem declaredOutside_ne_safe (hown : tree.Owns id loop) (hwf : tree.WellFormed)
    (hid : tree.Attached id) : declaredOutside tree (some id) loop.var ≠ .ok .safe := by
  intro h
  have hlt := hwf.lt_size hid
  have hkind := Tree.forEach?_eq_some.1 hown.here
  have hdeclares : (tree.kind? id).any (Tree.declares loop.var) = true := by
    simp [hkind, Tree.declares]
  have hdeclaration : tree.declarationOf? loop.var = .ok (some id) := by
    rw [hwf.declarationOf?_eq]
    -- the search finds the loop, for nothing else in the tree declares the parameter
    cases hfind :
        (tree.preorder tree.root).find? fun n => (tree.kind? n).any (Tree.declares loop.var) with
    | none =>
      have hno := List.find?_eq_none.1 hfind id (Tree.mem_preorder_iff.2 hid)
      exact absurd hdeclares hno
    | some d =>
      have hd : tree.Attached d := Tree.mem_preorder_iff.1 (List.mem_of_find?_eq_some hfind)
      have hsame : (tree.kind? d).any (Tree.declares loop.var) = true := by
        simpa using List.find?_some hfind
      rw [hown.declares d hd hsame]
  -- a loop is an ancestor of itself
  have hancestor : tree.isAncestor id id = .ok true := by simp [hwf.isAncestor_eq hlt]
  obtain ⟨x, hx, hparameter⟩ := hown.kind
  simp [declaredOutside, hx, hparameter, hdeclaration, hancestor] at h

/-- **What a steady expression mentions is declared outside** of the loop. -/
theorem Steady.declaredOutside {enclosing : Option NodeId} (h : Steady tree enclosing q)
    (hv : tree.Mentions v q) : declaredOutside tree enclosing v = .ok .safe := by
  induction h with
  | thisRef here => simp [Tree.mentions_iff_of_expr here rfl, Expr.children] at hv
  | superRef here => simp [Tree.mentions_iff_of_expr here rfl, Expr.children] at hv
  | typeName here => simp [Tree.mentions_iff_of_expr here rfl, Expr.children] at hv
  | @name id n w here outside =>
    rw [Tree.mentions_iff, Tree.expr?_eq_some.2 here, Tree.parts_eq_children here] at hv
    obtain rfl : w = v := by simpa [Expr.var?, Kind.children, Expr.children] using hv
    exact outside
  | @field id owner n w here outside _ ih =>
    rw [Tree.mentions_iff, Tree.expr?_eq_some.2 here, Tree.parts_eq_children here] at hv
    -- the field itself, or what its owner mentions
    have hcases : w = v ∨ tree.Mentions v owner := by
      simpa [Expr.var?, Kind.children, Expr.children] using hv
    rcases hcases with rfl | hv
    · exact outside
    · exact ih hv
  | paren here _ ih =>
    exact ih (by simpa [Expr.children] using (Tree.mentions_iff_of_expr here rfl).1 hv)

/-- The qualifier of the call that adds hangs in the tree where the body does. -/
theorem Found.attached_qualifier {accumulation : Accumulation} {body : NodeId}
    (h : Found tree action accumulation) (hq : accumulation.qualifier = some q)
    (hbody : tree.Attached body) (hguarded : tree.Guarded body conds action) :
    tree.Reaches body q ∧ tree.Attached q := by
  have hreaches : tree.Reaches body q :=
    (hguarded.reaches_action.trans h.reaches_call).tail (by simp [h.parts_call, hq])
  exact ⟨hreaches, hbody.reaches hreaches⟩

/-- **What is added to in the body of a loop is steady** as far as this loop is concerned. -/
theorem Found.steady_in {accumulation : Accumulation} {body : NodeId}
    (h : Found tree action accumulation) (hq : accumulation.qualifier = some q)
    (hwf : tree.WellFormed)
    (hid : tree.Attached id) (hloop : tree.forEach? id = some loop) (hbody : loop.body = some body)
    (hguarded : tree.Guarded body conds action) : Steady tree (some id) q := by
  have hmem : body ∈ tree.parts id := by
    simp [Tree.parts_eq_children (Tree.forEach?_eq_some.1 hloop), Kind.children,
      Stmt.children, hbody]
  have hattached := hid.of_mem hmem
  -- the loop around the action is the loop itself
  have henclosing : tree.enclosingForEach? action = .ok (some id) := by
    rw [hguarded.enclosingForEach?_eq hwf hattached, Tree.enclosingForEach?,
      hwf.climb_part hid hmem, hloop]
    rfl
  obtain ⟨enclosing, hfound, hsteady⟩ :=
    h.steady hq (hwf.grounded (h.attached_qualifier hq hattached hguarded).2)
  obtain rfl := Except.ok.inj (hfound.symm.trans henclosing)
  exact hsteady

/-- **What is added to does not mention the parameter** of the loop that the action belongs to. -/
theorem Found.not_mentions {accumulation : Accumulation} {body : NodeId}
    (h : Found tree action accumulation) (hq : accumulation.qualifier = some q)
    (hwf : tree.WellFormed)
    (hid : tree.Attached id) (hown : tree.Owns id loop) (hbody : loop.body = some body)
    (hguarded : tree.Guarded body conds action) : ¬ tree.Mentions loop.var q := fun hv =>
  declaredOutside_ne_safe hown hwf hid
    ((h.steady_in hq hwf hid hown.here hbody hguarded).declaredOutside hv)

end Accumulation

end LoopToStream
