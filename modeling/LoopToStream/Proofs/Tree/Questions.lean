import LoopToStream.Proofs.Tree.Ancestors
import LoopToStream.Proofs.Tree.Landmarks

/-!
# Questions about a well-formed tree

The questions of `Tree.Query` have an answer for every node that hangs in a well-formed tree, and
the answers mean what they should:

* `WellFormed.commentsIn_eq`, `WellFormed.forEachLoops_eq`, `WellFormed.declarationOf?_eq` — a walk
  that does not get lost;
* `WellFormed.prevSibling?_eq_some` — the block in which one statement stands right in front of
  another;
* `Grounded.skipParens_eq` — parentheses are seen through until there are none.

Code without landmarks (`Tree.Unmarked`) has none with parentheses around it either. Landmarks are
comments and statements, so that everything in which no function literal occurs is without them.
-/

namespace LoopToStream

namespace Tree

variable {tree : Tree} {id inner a n : NodeId} {kind : Kind NodeId}

/-! ### Walks that do not get lost -/

theorem Grounded.descendants_eq (hg : tree.Grounded a) :
    tree.descendants a = .ok (tree.preorder a) :=
  allFound_eq_ok fun _ hn => (hg.of_reaches (mem_preorder_iff.1 hn)).lt_size

theorem Grounded.descendantsWhere_eq (hg : tree.Grounded a) (enter : NodeId → Bool) :
    tree.descendantsWhere enter a = .ok (tree.preorderWhere enter a) :=
  allFound_eq_ok fun _ hn => (hg.of_reaches (reaches_of_mem_preorderWhere hn)).lt_size

namespace WellFormed

variable (h : tree.WellFormed)
include h

theorem descendants_eq (ha : tree.Attached a) : tree.descendants a = .ok (tree.preorder a) :=
  (h.grounded ha).descendants_eq

theorem commentsIn_eq (ha : tree.Attached a) :
    tree.commentsIn a = .ok (tree.commentsBelow a) := by
  rw [commentsIn, h.descendants_eq ha]
  rfl

theorem forEachLoops_eq : tree.forEachLoops = .ok (tree.loopsBelow tree.root) := by
  rw [forEachLoops, h.descendants_eq attached_root]
  rfl

theorem declarationOf?_eq (v : VarId) :
    tree.declarationOf? v =
      .ok ((tree.preorder tree.root).find? fun n => (tree.kind? n).any (declares v)) := by
  rw [declarationOf?, h.descendants_eq attached_root]
  rfl

/-- A node declares the variable that it is found to declare. -/
theorem declares_of_declarationOf? {v : VarId} {d : NodeId}
    (hdeclaration : tree.declarationOf? v = .ok (some d)) :
    (tree.kind? d).any (declares v) = true := by
  rw [h.declarationOf?_eq, Except.ok.injEq] at hdeclaration
  have hdeclares := List.find?_some hdeclaration
  exact hdeclares

/-- What is at or below a node, except for what is below some of it. -/
theorem descendantsWhere_eq (enter : NodeId → Bool) (ha : tree.Attached a) :
    tree.descendantsWhere enter a = .ok (tree.preorderWhere enter a) ∧
      ∀ n ∈ tree.preorderWhere enter a, tree.Attached n := by
  have hall : ∀ n ∈ tree.preorderWhere enter a, tree.Attached n := fun n hn =>
    ha.reaches (reaches_of_mem_preorderWhere hn)
  exact ⟨allFound_eq_ok fun n hn => h.lt_size (hall n hn), hall⟩

end WellFormed

/-! ### Neighbours -/

theorem before?_eq_some {ids : List NodeId} {previous : NodeId}
    (h : before? id ids = some previous) :
    ∃ left right, ids = left ++ previous :: id :: right := by
  induction ids with
  | nil => simp [before?] at h
  | cons first rest ih =>
    cases rest with
    | nil => simp [before?] at h
    | cons next rest =>
      rw [before?] at h
      -- the search ends with the first of two neighbours whose second is the one looked for
      split at h
      · simp at h
      · split at h
        · next hnext =>
          cases h
          exact ⟨[], rest, by rw [hnext]; rfl⟩
        · obtain ⟨left, right, heq⟩ := ih h
          exact ⟨first :: left, right, by rw [heq]; rfl⟩

/-- **The statement right in front** of another one stands in the same block. -/
theorem WellFormed.prevSibling?_eq_some (h : tree.WellFormed) (hid : id.index < tree.size)
    {previous : NodeId} (hprevious : tree.prevSibling? id = .ok (some previous)) :
    ∃ up left right, tree.Attached up ∧
      tree.kind? up = some (.stmt (.block (left ++ previous :: id :: right))) := by
  rw [prevSibling?, parent_of_lt hid, ok_bind] at hprevious
  cases hparent : tree.parent? id with
  | none => simp [hparent] at hprevious
  | some up =>
    simp only [hparent, pure_eq_ok, Except.ok.injEq] at hprevious
    -- the parent is a block, and the statement in front is found in its list
    obtain ⟨stmts, hstmts, hbefore⟩ := Option.bind_eq_some_iff.1 hprevious
    obtain ⟨s, hs, hblock⟩ := Option.bind_eq_some_iff.1 hstmts
    obtain ⟨left, right, rfl⟩ := before?_eq_some hbefore
    cases s <;> simp [Stmt.block?] at hblock
    subst hblock
    exact ⟨up, left, right, (h.parent?_eq_some.1 hparent).1, stmt?_eq_some.1 hs⟩

theorem exists_prevSibling? (hid : id.index < tree.size) :
    ∃ previous, tree.prevSibling? id = .ok previous := by
  rw [prevSibling?, parent_of_lt hid, ok_bind]
  cases tree.parent? id with
  | none => exact ⟨_, rfl⟩
  | some up => exact ⟨_, rfl⟩

/-! ### Parentheses -/

theorem parenthesised?_eq_some :
    tree.parenthesised? id = some inner ↔ tree.kind? id = some (.expr (.paren inner)) := by
  rw [parenthesised?, ← expr?_eq_some]
  cases h : tree.expr? id with
  | none => simp
  | some e => cases e <;> simp

theorem parts_of_parenthesised? (h : tree.parenthesised? id = some inner) :
    tree.parts id = [inner] :=
  parts_eq_children (parenthesised?_eq_some.1 h)

/-- **Parentheses are seen through** until there are none. -/
theorem Grounded.skipParens_eq (hg : tree.Grounded id) :
    tree.skipParens id =
      match tree.parenthesised? id with
      | some inner => tree.skipParens inner
      | none => id :=
  hg.innermost_eq fun _ _ h => .of_mem (by simp [parts_of_parenthesised? h])

/-- What is true of the content of parentheses, whatever there is around it, and not lost by
putting parentheses around it, is true with all parentheses. -/
theorem Grounded.of_skipParens {motive : NodeId → Prop} (hg : tree.Grounded id)
    (hparen : ∀ x y, tree.kind? x = some (.expr (.paren y)) → motive y → motive x)
    (h : motive (tree.skipParens id)) : motive id := by
  -- the induction peels off the layers of parentheses one by one
  induction hg with
  | @layer a kind here below ih =>
    have hg : tree.Grounded a := .layer here below
    rw [hg.skipParens_eq] at h
    cases hinner : tree.parenthesised? a with
    | none => simpa [hinner] using h
    | some inner =>
      rw [hinner] at h
      have hkind := parenthesised?_eq_some.1 hinner
      refine hparen a inner hkind (ih inner ?_ h)
      rw [← parts_eq_children here, parts_of_parenthesised? hinner]
      exact List.mem_singleton_self inner

theorem reaches_skipParens (tree : Tree) (id : NodeId) : tree.Reaches id (tree.skipParens id) :=
  reaches_innermostWithin (fun x y h => by simp [parts_of_parenthesised? h]) _ id

/-- Parentheses are no landmarks. -/
theorem Grounded.landmarks_skipParens (hg : tree.Grounded id) :
    tree.landmarks id = tree.landmarks (tree.skipParens id) := by
  refine hg.of_skipParens (motive := fun x => tree.Grounded x →
    tree.landmarks x = tree.landmarks (tree.skipParens id)) (fun x y hx hy hgx => ?_)
      (fun _ => rfl) hg
  have hparts : tree.parts x = [y] := parts_eq_children hx
  rw [hgx.landmarks_eq, mark?_eq_of_kind? hx, hparts, List.flatMap_singleton,
    hy (hgx.of_mem_parts (by simp [hparts]))]
  rfl

theorem Unmarked.of_skipParens (hg : tree.Grounded id) (h : tree.Unmarked (tree.skipParens id)) :
    tree.Unmarked id :=
  hg.of_skipParens (fun x y hx hy => .expr hx rfl (by simpa [Expr.children] using hy)) h

end Tree

end LoopToStream
