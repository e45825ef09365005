import LoopToStream.Proofs.Tree.Mentions

/-!
# Taking parentheses off

`Tree.skipParens` goes inwards through a bounded number of parentheses. `Tree.Strips` is what it is
meant to find out, as a relation with one rule for an expression that is not in parentheses and one
for the parentheses around it. The two agree

* where all code is finite (`Grounded.strips_iff`), and
* wherever the function has not stopped at further parentheses (`strips_skipParens`), in any tree.

What is around the expression adds nothing to it: no reference to a variable
(`Strips.references_eq`), and no way for it to be infinite (`Strips.grounded`).
-/

namespace LoopToStream

namespace Tree

variable {tree : Tree} {a id inner m n : NodeId} {v : VarId} {e : Expr NodeId}

/-! ### References -/

/-- The references of an expression are the expression itself and those of its parts. -/
theorem Grounded.references_of_expr (hg : tree.Grounded a) (here : tree.kind? a = some (.expr e)) :
    tree.references v a =
      (if e.var? = some v then [a] else []) ++ e.children.flatMap (tree.references v) := by
  have hbelow : (e.children.flatMap tree.preorder).filter
      (fun n => (tree.expr? n).bind Expr.var? = some v) = e.children.flatMap (tree.references v) :=
    List.filter_flatMap
  rw [references, hg.preorder_eq, parts_eq_children here, Kind.children, List.filter_cons, hbelow,
    expr?_eq_some.2 here]
  by_cases h : e.var? = some v <;> simp [h]

/-! ### What is inside of parentheses -/

/-- **Without its parentheses**, all of them, the expression at the first id is the one at the
second. -/
inductive Strips (tree : Tree) : NodeId → NodeId → Prop where
  | bare {id : NodeId} (no_paren : tree.parenthesised? id = none) : Strips tree id id
  | paren {id inner n : NodeId} (here : tree.kind? id = some (.expr (.paren inner)))
      (below : Strips tree inner n) : Strips tree id n

namespace Strips

/-- All parentheses are off. -/
theorem parenthesised?_eq_none (h : tree.Strips id n) : tree.parenthesised? n = none := by
  induction h with
  | bare no_paren => exact no_paren
  | paren _ _ ih => exact ih

/-- An expression of any other form is there without parentheses. -/
theorem of_expr (here : tree.kind? id = some (.expr e)) (hno : ∀ inner, e ≠ .paren inner) :
    tree.Strips id id := by
  refine .bare (Option.eq_none_iff_forall_ne_some.2 fun inner hinner => ?_)
  rw [parenthesised?_eq_some, here, Option.some.injEq, Kind.expr.injEq] at hinner
  exact hno inner hinner

theorem eq_or_paren (h : tree.Strips id n) :
    id = n ∨ ∃ inner, tree.kind? id = some (.expr (.paren inner)) := by
  cases h with
  | bare _ => exact .inl rfl
  | paren here _ => exact .inr ⟨_, here⟩

/-- **There is one way to take parentheses off.** -/
theorem unique (hm : tree.Strips id m) (hn : tree.Strips id n) : m = n := by
  -- a layer of parentheses is seen from both sides or from neither, and its content is the same
  induction hm with
  | bare no_paren =>
    cases hn with
    | bare _ => rfl
    | paren here _ => rw [parenthesised?_eq_some.2 here] at no_paren; cases no_paren
  | paren here _ ih =>
    cases hn with
    | bare no_paren => rw [parenthesised?_eq_some.2 here] at no_paren; cases no_paren
    | paren here' below =>
      obtain rfl := Expr.paren.inj (Kind.expr.inj (Option.some.inj (here.symm.trans here')))
      exact ih below

/-- **Through parentheses**: a way that each node in parentheses may be a step of leads inside. -/
theorem path {P : NodeId → Prop} (h : tree.Strips id n)
    (hP : ∀ x y, tree.kind? x = some (.expr (.paren y)) → P x) :
    Relation.ReflTransGen (fun p c => P p ∧ c ∈ tree.parts p) id n := by
  induction h with
  | bare _ => exact .refl
  | paren here _ ih =>
    exact .head ⟨hP _ _ here, by simp [parts_eq_children here, Kind.children, Expr.children]⟩ ih

theorem reaches (h : tree.Strips id n) : tree.Reaches id n :=
  Relation.ReflTransGen.mono (fun _ _ hstep => hstep.2) _ _ (h.path fun _ _ _ => trivial)

theorem grounded (h : tree.Strips id n) (hg : tree.Grounded n) : tree.Grounded id := by
  induction h with
  | bare _ => exact hg
  | paren here _ ih => exact .layer here (by simpa [Kind.children, Expr.children] using ih hg)

/-- Parentheses refer to no variable. -/
theorem references_eq (h : tree.Strips id n) (hg : tree.Grounded n) :
    tree.references v id = tree.references v n := by
  induction h with
  | bare _ => rfl
  | @paren id inner n here below ih =>
    rw [((Strips.paren here below).grounded hg).references_of_expr here]
    simpa [Expr.var?, Expr.children] using ih hg

end Strips

/-! ### The function that takes them off -/

theorem strips_innermostWithin {fuel : Nat}
    (h : tree.parenthesised? (innermostWithin tree.parenthesised? fuel id) = none) :
    tree.Strips id (innermostWithin tree.parenthesised? fuel id) := by
  induction fuel generalizing id with
  -- the hypothesis says that the steps did not run out within the parentheses
  | zero => exact .bare h
  | succ fuel ih =>
    rw [innermostWithin] at h ⊢
    cases hinner : tree.parenthesised? id with
    | none => exact .bare hinner
    | some inner =>
      rw [hinner] at h
      exact .paren (parenthesised?_eq_some.1 hinner) (ih h)

/-- **Where the way inwards has ended**, and has not merely been given up, all parentheses are off.
-/
theorem strips_skipParens (h : tree.parenthesised? (tree.skipParens id) = none) :
    tree.Strips id (tree.skipParens id) := strips_innermostWithin h

/-- Any form but parentheses is where the way inwards ends. -/
theorem strips_skipParens_of_expr (here : tree.kind? (tree.skipParens id) = some (.expr e))
    (hno : ∀ inner, e ≠ .paren inner) : tree.Strips id (tree.skipParens id) :=
  strips_skipParens (Strips.of_expr here hno).parenthesised?_eq_none

theorem Grounded.strips_skipParens (hg : tree.Grounded id) :
    tree.Strips id (tree.skipParens id) := by
  induction hg with
  | @layer a kind here below ih =>
    have hg : tree.Grounded a := .layer here below
    rw [hg.skipParens_eq]
    cases hinner : tree.parenthesised? a with
    | none => exact .bare hinner
    | some inner =>
      -- what is inside of the parentheses is a part of them, so the claim holds there
      refine .paren (parenthesised?_eq_some.1 hinner) (ih inner ?_)
      rw [← parts_eq_children here, parts_of_parenthesised? hinner]
      exact List.mem_singleton_self inner

/-- **In finite code** the function takes off what can be taken off. -/
theorem Grounded.strips_iff (hg : tree.Grounded id) : tree.Strips id n ↔ n = tree.skipParens id :=
  ⟨fun h => h.unique hg.strips_skipParens, fun h => h ▸ hg.strips_skipParens⟩

end Tree

end LoopToStream
