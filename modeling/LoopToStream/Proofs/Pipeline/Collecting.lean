import LoopToStream.Proofs.Pipeline.Replacing

/-!
# Where the elements are collected

A pipeline that gathers elements calls `collect` on its chain. The call becomes the initial value of
a declaration or the argument of `addAll` (`Pipeline.Collects`), and what it is called on mentions
what the parts of the loop mention that the chain links, and no variable besides
(`Pipeline.CollectCall`).
-/

namespace LoopToStream

namespace Pipeline

variable {tree next before : Tree} {edit mid after : Edit} {kept extra parts : List NodeId}
  {stmt collected chain : NodeId} {binding binding' : Option Nat} {text text' : String}

/-- **A statement collects** by a call on a chain: in the initial value of a declaration or in what
is added to a collection, perhaps behind comments in a block. -/
inductive Collects (tree : Tree) : NodeId → NodeId → NodeId → Prop where
  | declared {declaration collected chain collector : NodeId} {var : VarId}
      (here : tree.kind? declaration = some (.stmt (.declare var (some collected))))
      (collects : tree.kind? collected =
        some (.expr (.call ⟨some chain, "collect", [collector], none⟩))) :
      Collects tree declaration collected chain
  | added {stmt call collected chain collector : NodeId} {receiver : Option NodeId}
      (here : tree.kind? stmt = some (.stmt (.expr call)))
      (adds : tree.kind? call = some (.expr (.call ⟨receiver, "addAll", [collected], none⟩)))
      (collects : tree.kind? collected =
        some (.expr (.call ⟨some chain, "collect", [collector], none⟩))) :
      Collects tree stmt collected chain
  | behind {block stmt collected chain : NodeId} {comments : List NodeId}
      (here : tree.kind? block = some (.stmt (.block (comments ++ [stmt]))))
      (below : Collects tree stmt collected chain) : Collects tree block collected chain

/-- Changes elsewhere do not matter. -/
theorem Collects.transfer (h : Collects before stmt collected chain)
    (hsame : before.SameBelow next stmt) : Collects next stmt collected chain := by
  -- the statement, the call in it and what it collects are all at or below the statement
  induction h with
  | declared here collects =>
    refine .declared ((hsame _ (.refl _)).trans here) ((hsame _ (.of_mem ?_)).trans collects)
    simp [Tree.parts_eq_children here, Kind.children, Stmt.children]
  | @added stmt call collected chain collector receiver here adds collects =>
    have hcall : before.Reaches stmt call := .of_mem (by
      simp [Tree.parts_eq_children here, Kind.children, Stmt.children])
    have hcollected : before.Reaches stmt collected := hcall.tail (by
      simp [Tree.parts_eq_children adds, Kind.children, Expr.children])
    exact .added ((hsame _ (.refl _)).trans here) ((hsame _ hcall).trans adds)
      ((hsame _ hcollected).trans collects)
  | behind here below ih =>
    refine .behind ((hsame _ (.refl _)).trans here) (ih (hsame.of_reaches (.of_mem ?_)))
    simp [Tree.parts_eq_children here, Kind.children, Stmt.children]

theorem Collects.reaches (h : Collects tree stmt collected chain) :
    tree.Reaches stmt collected := by
  induction h with
  | declared here collects =>
    exact .of_mem (by simp [Tree.parts_eq_children here, Kind.children, Stmt.children])
  | @added stmt call collected chain collector receiver here adds collects =>
    refine (Tree.Reaches.of_mem (c := call) ?_).tail ?_
    · simp [Tree.parts_eq_children here, Kind.children, Stmt.children]
    · simp [Tree.parts_eq_children adds, Kind.children, Expr.children]
  | behind here below ih =>
    exact ih.head (by simp [Tree.parts_eq_children here, Kind.children, Stmt.children])

theorem Collects.mem_parts (h : Collects tree stmt collected chain) :
    chain ∈ tree.parts collected := by
  induction h with
  | declared here collects => simp [Tree.parts_eq_children collects, Kind.children, Expr.children]
  | added here adds collects => simp [Tree.parts_eq_children collects, Kind.children, Expr.children]
  | behind here below ih => exact ih

/-- Comments in front make no difference. -/
theorem Stands.collects {inBlock : Bool} {comments : List NodeId} {new : NodeId}
    (h : Stands tree inBlock comments stmt new) (hcollects : Collects tree stmt collected chain) :
    Collects tree new collected chain := by
  cases h with
  | alone room => exact hcollects
  | together no_room here => exact .behind here hcollects

/-- **What a call of `collect` mentions**: what some parts of the tree mention, and all of it in the
chain. -/
structure CollectCall (tree next : Tree) (parts : List NodeId) (collected chain : NodeId) :
    Prop where
  grounded : next.Grounded collected
  here : ∃ collector, next.kind? collected =
    some (.expr (.call ⟨some chain, "collect", [collector], none⟩))
  chain_mentions : ∀ v, next.Mentions v chain ↔ ∃ part ∈ parts, tree.Mentions v part
  mentions : ∀ v, next.Mentions v collected ↔ ∃ part ∈ parts, tree.Mentions v part

/-- Changes elsewhere do not matter. -/
theorem CollectCall.transfer (h : CollectCall tree before parts collected chain)
    (hsame : before.SameBelow next collected) : CollectCall tree next parts collected chain := by
  obtain ⟨collector, here⟩ := h.here
  have hchain : chain ∈ before.parts collected := by
    simp [Tree.parts_eq_children here, Kind.children, Expr.children]
  refine ⟨hsame.grounded h.grounded, ⟨collector, (hsame _ (.refl _)).trans here⟩, fun v => ?_,
    fun v => ?_⟩
  · -- the chain is below the collected value, so it is unchanged too
    rw [(hsame.of_reaches (.of_mem hchain)).mentions_iff (h.grounded.of_mem_parts hchain)]
    exact h.chain_mentions v
  · rw [hsame.mentions_iff h.grounded]
    exact h.mentions v

/-- A call on a chain that has been staged, with a collector that mentions nothing. -/
theorem Emits.collectCall (hchain : Emits tree edit mid kept chain binding text)
    (hcollected : Emits tree edit after (kept ++ extra) collected binding' text')
    (hgrow : (mid.atop tree).Grows (after.atop tree))
    (here : ∃ collector, (after.atop tree).kind? collected =
      some (.expr (.call ⟨some chain, "collect", [collector], none⟩)))
    (hkept : ∀ c ∈ kept ++ extra, tree.Grounded c)
    (hextra : ∀ c ∈ extra, ∀ v, ¬ tree.Mentions v c) :
    CollectCall tree (after.atop tree) kept collected chain := by
  refine ⟨hcollected.stages.grounded, here, fun v => ?_, fun v => ?_⟩
  · have hmentions := hchain.stages.mentions_iff (v := v) fun c hc => hkept c (by simp [hc])
    rw [hgrow.mentions_iff hchain.stages.grounded]
    simpa using hmentions
  · have hmentions := hcollected.stages.mentions_iff (v := v) hkept
    have hnone : ¬ ∃ c ∈ extra, tree.Mentions v c := fun ⟨c, hc, hv⟩ => hextra c hc v hv
    simpa [or_and_right, exists_or, hnone] using hmentions

/-- A creation without arguments mentions nothing, and supplies a collection all the same. -/
theorem not_mentions_collectorFor {type : ClassType} {init c : NodeId} {target : Option MethodId}
    (hcreation : tree.kind? init = some (.expr (.create ⟨type, [], target⟩)))
    (hc : c ∈ (collectorFor type init).kept) (v : VarId) : ¬ tree.Mentions v c := by
  obtain rfl := eq_of_mem_kept_collectorFor hc
  rw [Tree.mentions_iff_of_expr hcreation rfl]
  simp [Expr.children]

end Pipeline

end LoopToStream
