import LoopToStream.Proofs.Tree.Questions
import LoopToStream.Proofs.Tree.Staged

/-!
# Which variables code mentions

`Tree.Mentions` says that a variable is referred to at or below an id, in function literals as well.
It is what `Tree.referencesIn` finds (`WellFormed.referencesIn_eq_nil`), and what counts when code
is built over parts of a tree: a node that is staged stands for no variable, so that new code
mentions what the parts mention that it has been built over, and nothing else
(`Built.mentions_iff`).

`Tree.Free` says of code that it refers to a variable outside of every function literal in it that
has the variable among its parameters (`Tree.Binds`). Code in which a variable is not free may
mention it all the same, but only below such a literal (`Tree.exists_binder`).
-/

namespace LoopToStream

open scoped List

namespace Tree

variable {tree tree' : Tree} {a id inner : NodeId} {v : VarId} {kept ids : List NodeId}
  {lo hi : Nat}

/-- A variable is referred to at or below an id. -/
def Mentions (tree : Tree) (v : VarId) (id : NodeId) : Prop :=
  ∃ n, tree.Reaches id n ∧ (tree.expr? n).bind Expr.var? = some v

theorem Mentions.of_reaches (h : tree.Mentions v a) (ha : tree.Reaches id a) :
    tree.Mentions v id := by
  obtain ⟨n, hn, hv⟩ := h
  exact ⟨n, ha.trans hn, hv⟩

/-- A variable is mentioned by a node itself or by one of its parts. -/
theorem mentions_iff : tree.Mentions v id ↔
    (tree.expr? id).bind Expr.var? = some v ∨ ∃ c ∈ tree.parts id, tree.Mentions v c := by
  constructor
  · rintro ⟨n, hn, hv⟩
    rcases reaches_iff.1 hn with rfl | ⟨c, hc, hcn⟩
    · exact .inl hv
    · exact .inr ⟨c, hc, n, hcn, hv⟩
  · rintro (hv | ⟨c, hc, hmentions⟩)
    · exact ⟨id, .refl id, hv⟩
    · exact hmentions.of_reaches (.of_mem hc)

/-- An expression that stands for no variable mentions what its parts mention. -/
theorem mentions_iff_of_expr {e : Expr NodeId} (h : tree.kind? id = some (.expr e))
    (hvar : e.var? = none) : tree.Mentions v id ↔ ∃ c ∈ e.children, tree.Mentions v c := by
  rw [mentions_iff, expr?_eq_some.2 h, Option.bind_some, hvar, parts_eq_children h, Kind.children]
  simp

theorem Grounded.mentions_skipParens (hg : tree.Grounded id) :
    tree.Mentions v (tree.skipParens id) ↔ tree.Mentions v id := by
  refine ⟨fun h => h.of_reaches (tree.reaches_skipParens _), ?_⟩
  refine hg.of_skipParens (motive :=
    fun x => tree.Mentions v x → tree.Mentions v (tree.skipParens id))
    (fun x y hx hy h => hy ?_) fun h => h
  simpa [Expr.children] using (mentions_iff_of_expr hx rfl).1 h

/-- What is below an id tells what is mentioned there. -/
theorem SameBelow.mentions_iff (h : tree.SameBelow tree' id) (hg : tree.Grounded id) :
    tree'.Mentions v id ↔ tree.Mentions v id := by
  have hreaches : ∀ n, tree'.Reaches id n ↔ tree.Reaches id n := fun n => by
    rw [← mem_preorder_iff, ← mem_preorder_iff, h.preorder_eq hg]
  refine exists_congr fun n => ?_
  rw [hreaches]
  refine and_congr_right fun hn => ?_
  rw [expr?, expr?, h n hn]

theorem Grows.mentions_iff (h : tree.Grows tree') (hg : tree.Grounded id) :
    tree'.Mentions v id ↔ tree.Mentions v id :=
  (h.sameBelow hg).mentions_iff hg

/-! ### References -/

/-- The names and fields at or below an id that stand for a variable. -/
def references (tree : Tree) (v : VarId) (id : NodeId) : List NodeId :=
  (tree.preorder id).filter fun n => (tree.expr? n).bind Expr.var? = some v

theorem mem_references : n ∈ tree.references v id ↔
    tree.Reaches id n ∧ (tree.expr? n).bind Expr.var? = some v := by
  rw [references, List.mem_filter, mem_preorder_iff, decide_eq_true_eq]

/-- There are references to what is mentioned. -/
theorem references_ne_nil : tree.references v id ≠ [] ↔ tree.Mentions v id := by
  constructor
  · intro h
    obtain ⟨n, hn⟩ := List.exists_mem_of_ne_nil _ h
    exact ⟨n, mem_references.1 hn⟩
  · rintro ⟨n, hn⟩
    exact List.ne_nil_of_mem (mem_references.2 hn)

/-- **What is found by looking for references.** -/
theorem Grounded.referencesIn_eq (hg : tree.Grounded id) :
    tree.referencesIn v id = .ok (tree.references v id) := by
  rw [referencesIn, hg.descendants_eq]
  rfl

theorem WellFormed.referencesIn_eq_nil (h : tree.WellFormed) (hid : tree.Attached id) :
    tree.referencesIn v id = .ok [] ↔ ¬ tree.Mentions v id := by
  rw [(h.grounded hid).referencesIn_eq, Except.ok.injEq, ← references_ne_nil, not_not]

/-! ### New code -/

/-- **New code mentions what it is built over**, if its own nodes stand for no variable. -/
theorem Built.mentions_iff (h : Built tree tree' kept lo hi ids) (hgrow : tree.Grows tree')
    (hkept : ∀ c ∈ kept, tree.Grounded c)
    (hnew : ∀ n, lo ≤ n.index → n.index < hi → (tree'.expr? n).bind Expr.var? = none) :
    (∃ id ∈ ids, tree'.Mentions v id) ↔ ∃ c ∈ kept, tree.Mentions v c := by
  -- the nodes at or below the new code are those of what is kept, and the new ones
  have hmem : ∀ n, (∃ id ∈ ids, tree'.Reaches id n) ↔
      (∃ c ∈ kept, tree.Reaches c n) ∨ lo ≤ n.index ∧ n.index < hi := fun n => by
    simp only [← mem_preorder_iff, ← List.mem_flatMap, ← mem_idsFrom, ← List.mem_append]
    exact h.listed.mem_iff
  constructor
  · rintro ⟨id, hid, n, hn, hv⟩
    rcases (hmem n).1 ⟨id, hid, hn⟩ with ⟨c, hc, hcn⟩ | ⟨hlo, hhi⟩
    · exact ⟨c, hc, (hgrow.mentions_iff (hkept c hc)).1
        ⟨n, (hgrow.sameBelow (hkept c hc)).reaches hcn, hv⟩⟩
    · -- a new node stands for no variable
      rw [hnew n hlo hhi] at hv
      cases hv
  · rintro ⟨c, hc, n, hn, hv⟩
    obtain ⟨id, hid, hreach⟩ := (hmem n).2 (.inl ⟨c, hc, hn⟩)
    exact ⟨id, hid, n, hreach, by rw [expr?, (hgrow.sameBelow (hkept c hc)) n hn, ← expr?, hv]⟩

end Tree

/-! ### Free variables -/

namespace Tree

variable {tree : Tree} {v : VarId} {a n : NodeId}

/-- A function literal with the variable among its parameters. -/
def Binds (tree : Tree) (v : VarId) (id : NodeId) : Prop :=
  ∃ params explicitTypes body,
    tree.kind? id = some (.expr (.lambda params explicitTypes body)) ∧ v ∈ params

/-- **A variable is free in code** if there is a way down to a reference that passes no literal
which binds the variable. -/
inductive Free (tree : Tree) (v : VarId) : NodeId → Prop where
  | here {id : NodeId} (refers : (tree.expr? id).bind Expr.var? = some v) : Free tree v id
  | part {id c : NodeId} (not_binds : ¬ tree.Binds v id) (mem : c ∈ tree.parts id)
      (free : Free tree v c) : Free tree v id

theorem Free.mentions (h : tree.Free v a) : tree.Mentions v a := by
  induction h with
  | here refers => exact ⟨_, .refl _, refers⟩
  | part _ mem _ ih => exact ih.of_reaches (.of_mem mem)

/-- **A reference to a variable that is not free** is below a literal that binds it. By induction on
the way down, which passes such a literal before it ends. -/
theorem exists_binder (hn : tree.Reaches a n) (hrefers : (tree.expr? n).bind Expr.var? = some v)
    (hno : ¬ tree.Free v a) :
    ∃ m, tree.Reaches a m ∧ tree.Binds v m ∧ tree.StrictlyReaches m n := by
  induction hn using Relation.ReflTransGen.head_induction_on with
  | refl => exact absurd (.here hrefers) hno
  | @head a c hc hcn ih =>
    by_cases hbinds : tree.Binds v a
    · exact ⟨a, .refl a, hbinds, strictlyReaches_iff.2 ⟨c, hc, hcn⟩⟩
    · obtain ⟨m, hm, hbinds, hmn⟩ := ih fun hfree => hno (.part hbinds hc hfree)
      exact ⟨m, hm.head hc, hbinds, hmn⟩

end Tree

end LoopToStream
