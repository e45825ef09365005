import LoopToStream.Proofs.Loop.Chain
import LoopToStream.Proofs.Tree.Ancestors

/-!
# What a body is made of

Taking the guards off a body throws away the blocks around them, with the comments in these blocks,
and keeps the conditions and the action. Nothing else may be lost on the way. `GuardChain.Plays`
says which part a node of the body can have in this, and `GuardChain.Splits` that a chain divides a
body up: each node has exactly one part, the guards stand inside of each other in their order, and
no guard has been left.

`GuardChain.splits_of` says that the chain that is taken off a body does so, and that it does not
depend on the bound that is set on the search for it. The proof is by induction on what is taken off
(`Tree.Peels`). One step adds the node that is taken off, the condition of a guard or the comments
of a block, and all other nodes keep the part that they have below (`Peels.plays_wrapped`,
`plays_guarded`).
-/

namespace LoopToStream

variable {tree : Tree} {body id inner cond branch n : NodeId} {chain : GuardChain}

/-! ### Parts -/

namespace Tree

/-- **A wrapper**: a block around a single statement, between the body and the action. -/
structure Wraps (tree : Tree) (body action id : NodeId) : Prop where
  single : (tree.onlyStatement? id).isSome = true
  below : tree.Reaches body id
  above : tree.StrictlyReaches id action

end Tree

namespace GuardChain

/-- The part that a node of a body has. -/
inductive Part where
  /-- A block that is thrown away. -/
  | wrapper
  /-- A comment in such a block. -/
  | comment
  | guard
  /-- In the condition of the guard with this number. -/
  | condition (number : Nat)
  | action
deriving DecidableEq, Repr

/-- The part of what is inside of a guard, when the guard is counted as well. -/
def Part.inward : Part → Part
  | condition number => condition (number + 1)
  | part => part

/-- The node has this part in what the chain makes of the body. -/
inductive Plays (tree : Tree) (body : NodeId) (chain : GuardChain) (n : NodeId) : Part → Prop where
  | wrapper (wraps : tree.Wraps body chain.action n) : Plays tree body chain n .wrapper
  | comment {block : NodeId} (wraps : tree.Wraps body chain.action block)
      (inside : n ∈ tree.parts block)
      (here : (tree.comment? n).isSome = true) : Plays tree body chain n .comment
  | guard (mem : n ∈ chain.guards) : Plays tree body chain n .guard
  | condition {number : Nat} {cond : NodeId} (here : chain.conditions[number]? = some cond)
      (below : tree.Reaches cond n) : Plays tree body chain n (.condition number)
  | action (below : tree.Reaches chain.action n) : Plays tree body chain n .action

/-- **The chain divides the body up**, and as far as it goes. -/
structure Splits (tree : Tree) (body : NodeId) (chain : GuardChain) : Prop where
  /-- Each node has exactly one part. -/
  parts : ∀ n, tree.Reaches body n → ∃! part, chain.Plays tree body n part
  /-- Each guard is a complete `if` without `else`, with the condition that has its number. -/
  guards : List.Forall₂ (fun guard cond => ∃ branch,
    tree.stmt? guard = some (.branch (some cond) (some branch) none)) chain.guards chain.conditions
  /-- A guard is above all guards behind it, and above the action. -/
  nested : (chain.guards ++ [chain.action]).Pairwise tree.StrictlyReaches
  /-- The action is no block around a single statement. -/
  unwrapped : ∀ stmts, tree.stmt? chain.action = some (.block stmts) →
    (tree.statementsAmong stmts).length ≠ 1
  /-- The action is no further guard. -/
  unguarded : ∀ cond branch, tree.stmt? chain.action ≠ some (.branch (some cond) (some branch) none)

end GuardChain

/-! ### Taking off one thing after the other -/

namespace Tree

open GuardChain (Part)

/-- The chain is what is found when all that is around an action is taken off the code at the id. -/
inductive Peels (tree : Tree) : NodeId → GuardChain → Prop where
  | wrapped {id inner : NodeId} {chain : GuardChain} (only : tree.onlyStatement? id = some inner)
      (below : Peels tree inner chain) : Peels tree id chain
  | guarded {id cond branch : NodeId} {chain : GuardChain}
      (guard : GuardChain.guard? tree id = some (cond, branch)) (below : Peels tree branch chain) :
      Peels tree id (.guarded id cond chain)
  | bare {id : NodeId} (unwrapped : tree.onlyStatement? id = none)
      (unguarded : GuardChain.guard? tree id = none) : Peels tree id (.bare id)

theorem Grounded.peels_of (hg : tree.Grounded id) : tree.Peels id (GuardChain.of tree id) := by
  induction hg with
  | @layer a kind here below ih =>
    have hparts := parts_eq_children here
    rw [(Grounded.layer here below).chain_of_eq]
    -- a block with a single statement is looked into before a guard is
    cases honly : tree.onlyStatement? a with
    | some inner => exact .wrapped honly (ih inner (hparts ▸ mem_parts_of_onlyStatement? honly))
    | none =>
      cases hguard : GuardChain.guard? tree a with
      | none => exact .bare honly hguard
      | some parts =>
        obtain ⟨cond, branch⟩ := parts
        exact .guarded hguard (ih branch (hparts ▸ by simp [parts_of_guard? hguard]))

/-- A guard is no block. -/
theorem onlyStatement?_of_guard? (h : GuardChain.guard? tree id = some (cond, branch)) :
    tree.onlyStatement? id = none := by
  rw [onlyStatement?, stmt?_eq_some.2 (guard?_eq_some h)]
  rfl

namespace Peels

theorem reaches_action (h : tree.Peels id chain) : tree.Reaches id chain.action := by
  induction h with
  | wrapped only _ ih => exact ih.head (mem_parts_of_onlyStatement? only)
  | guarded guard _ ih => exact ih.head (by simp [parts_of_guard? guard])
  | bare => exact .refl _

theorem reaches_guard (h : tree.Peels id chain) (hn : n ∈ chain.guards) : tree.Reaches id n := by
  induction h with
  | wrapped only _ ih => exact (ih hn).head (mem_parts_of_onlyStatement? only)
  | guarded guard _ ih =>
    rcases List.mem_cons.1 hn with rfl | hn
    · exact .refl n
    · exact (ih hn).head (by simp [parts_of_guard? guard])
  | bare => cases hn

theorem reaches_condition (h : tree.Peels id chain) (hn : n ∈ chain.conditions) :
    tree.Reaches id n := by
  induction h with
  | wrapped only _ ih => exact (ih hn).head (mem_parts_of_onlyStatement? only)
  | guarded guard _ ih =>
    rcases List.mem_cons.1 hn with rfl | hn
    · exact .of_mem (by simp [parts_of_guard? guard])
    · exact (ih hn).head (by simp [parts_of_guard? guard])
  | bare => cases hn

/-- What has a part is in the body. -/
theorem reaches_of_plays (h : tree.Peels id chain) {part : Part} (hn : chain.Plays tree id n part) :
    tree.Reaches id n := by
  cases hn with
  | wrapper wraps => exact wraps.below
  | comment wraps inside _ => exact wraps.below.tail inside
  | guard mem => exact h.reaches_guard mem
  | condition here below => exact (h.reaches_condition (List.mem_of_getElem? here)).trans below
  | action below => exact h.reaches_action.trans below

/-! ### The parts, one step at a time -/

/-- What is below two parts of the code is below the one part twice. -/
theorem part_unique (hwf : tree.WellFormed) (hid : tree.Attached id) {p q : NodeId}
    (hp : p ∈ tree.parts id) (hq : q ∈ tree.parts id) (hpn : tree.Reaches p n)
    (hqn : tree.Reaches q n) : p = q := by
  by_contra hne
  exact hwf.linkedOnce.siblings_disjoint hid hp hq hne hpn hqn

/-- **The wrappers** of code are the code itself, if it is a block with a single statement, and
those further inside. -/
theorem wraps_iff (hwf : tree.WellFormed) (hid : tree.Attached id) (hinner : inner ∈ tree.parts id)
    (below : tree.Peels inner chain) :
    tree.Wraps id chain.action n ↔
      n = id ∧ (tree.onlyStatement? id).isSome ∨ tree.Wraps inner chain.action n := by
  constructor
  · intro h
    rcases reaches_iff.1 h.below with rfl | ⟨p, hp, hpn⟩
    · exact .inl ⟨rfl, h.single⟩
    · -- only one part of a node of the tree leads down to the action
      obtain rfl := part_unique hwf hid hp hinner (hpn.trans h.above.reaches) below.reaches_action
      exact .inr ⟨h.single, hpn, h.above⟩
  · rintro (⟨rfl, hsingle⟩ | h)
    · exact ⟨hsingle, .refl _, strictlyReaches_iff.2 ⟨inner, hinner, below.reaches_action⟩⟩
    · exact ⟨h.single, h.below.head hinner, h.above⟩

variable {part : Part}

/-- **A block around a single statement** adds itself and its comments. -/
theorem plays_wrapped (hwf : tree.WellFormed) (hid : tree.Attached id)
    (only : tree.onlyStatement? id = some inner) (below : tree.Peels inner chain) :
    chain.Plays tree id n part ↔
      (n = id ∧ part = .wrapper) ∨ (n ∈ tree.parts id ∧ n ≠ inner ∧ part = .comment) ∨
        chain.Plays tree inner n part := by
  have hwraps := fun n => wraps_iff (n := n) hwf hid (mem_parts_of_onlyStatement? only) below
  simp only [only, Option.isSome_some, and_true] at hwraps
  constructor
  · -- each way to have a part is traced to the block or to what is inside
    intro h
    cases h with
    | wrapper wraps =>
      rcases (hwraps n).1 wraps with rfl | wraps
      · exact .inl ⟨rfl, rfl⟩
      · exact .inr (.inr (.wrapper wraps))
    | comment wraps inside here =>
      rcases (hwraps _).1 wraps with rfl | wraps
      · refine .inr (.inl ⟨inside, ?_, rfl⟩)
        -- the single statement is no comment
        rintro rfl
        obtain ⟨stmts, -, hsingle⟩ := onlyStatement?_eq_some only
        have hmem : n ∈ tree.statementsAmong stmts := by simp [hsingle]
        obtain ⟨s, hs⟩ := Option.isSome_iff_exists.1 (List.mem_filter.1 hmem).2
        simp [comment?, stmt?_eq_some.1 hs, Kind.comment?] at here
      · exact .inr (.inr (.comment wraps inside here))
    | guard mem => exact .inr (.inr (.guard mem))
    | condition here below => exact .inr (.inr (.condition here below))
    | action below => exact .inr (.inr (.action below))
  · -- and back: what stands beside the single statement is a comment
    rintro (⟨rfl, rfl⟩ | ⟨hn, hne, rfl⟩ | h)
    · exact .wrapper ((hwraps n).2 (.inl rfl))
    · obtain ⟨text, htext⟩ := comment_of_onlyStatement? hwf hid only hn hne
      exact .comment ((hwraps id).2 (.inl rfl)) hn (by simp [comment?_eq_some.2 htext])
    · cases h with
      | wrapper wraps => exact .wrapper ((hwraps n).2 (.inr wraps))
      | comment wraps inside here => exact .comment ((hwraps _).2 (.inr wraps)) inside here
      | guard mem => exact .guard mem
      | condition here below => exact .condition here below
      | action below => exact .action below

/-- **A guard** adds itself and its condition, which comes in front of the other conditions. -/
theorem plays_guarded (hwf : tree.WellFormed) (hid : tree.Attached id)
    (guard : GuardChain.guard? tree id = some (cond, branch)) (below : tree.Peels branch chain) :
    (GuardChain.guarded id cond chain).Plays tree id n part ↔
      (n = id ∧ part = .guard) ∨ (tree.Reaches cond n ∧ part = .condition 0) ∨
        ∃ inside, chain.Plays tree branch n inside ∧ part = inside.inward := by
  have hbranch : branch ∈ tree.parts id := by simp [parts_of_guard? guard]
  have hwraps := fun n => wraps_iff (n := n) hwf hid hbranch below
  simp only [onlyStatement?_of_guard? guard, Option.isSome_none, Bool.false_eq_true, and_false,
    false_or] at hwraps
  constructor
  · intro h
    cases h with
    | wrapper wraps => exact .inr (.inr ⟨_, .wrapper ((hwraps n).1 wraps), rfl⟩)
    | comment wraps inside here =>
      exact .inr (.inr ⟨_, .comment ((hwraps _).1 wraps) inside here, rfl⟩)
    | guard mem =>
      rcases List.mem_cons.1 mem with rfl | mem
      · exact .inl ⟨rfl, rfl⟩
      · exact .inr (.inr ⟨_, .guard mem, rfl⟩)
    | @condition number _ here below =>
      -- the condition of this guard is the first, and those inside move up by one
      cases number with
      | zero =>
        cases here
        exact .inr (.inl ⟨below, rfl⟩)
      | succ number => exact .inr (.inr ⟨_, .condition here below, rfl⟩)
    | action below => exact .inr (.inr ⟨_, .action below, rfl⟩)
  · rintro (⟨rfl, rfl⟩ | ⟨hn, rfl⟩ | ⟨inside, h, rfl⟩)
    · exact .guard List.mem_cons_self
    · exact .condition (show (cond :: chain.conditions)[0]? = some cond from rfl) hn
    · cases h with
      | wrapper wraps => exact .wrapper ((hwraps n).2 wraps)
      | comment wraps inside here => exact .comment ((hwraps _).2 wraps) inside here
      | guard mem => exact .guard (List.mem_cons_of_mem _ mem)
      | condition here below => exact .condition here below
      | action below => exact .action below

/-- **Bare code** is all action. -/
theorem plays_bare (hwf : tree.WellFormed) (hid : tree.Attached id) :
    (GuardChain.bare id).Plays tree id n part ↔ tree.Reaches id n ∧ part = .action := by
  -- nothing is strictly between a node and itself
  have hwraps : ∀ m, ¬ tree.Wraps id id m := fun m h =>
    hwf.linkedOnce.irrefl hid (Relation.TransGen.trans_right h.below h.above)
  constructor
  · intro h
    cases h with
    | wrapper wraps => exact absurd wraps (hwraps n)
    | comment wraps _ _ => exact absurd wraps (hwraps _)
    | guard mem => cases mem
    | condition here _ => cases here
    | action below => exact ⟨below, rfl⟩
  · rintro ⟨hn, rfl⟩
    exact .action hn

/-- **Each node of the code has exactly one part.** By induction on what is taken off. The node is
what is taken off, or below it in one place, so that at most one of the ways to have a part is open
to it. -/
theorem existsUnique_part (h : tree.Peels id chain) (hwf : tree.WellFormed) (hid : tree.Attached id)
    (hn : tree.Reaches id n) : ∃! part, chain.Plays tree id n part := by
  -- the code itself is not below its parts
  have hbelow : ∀ {id p}, tree.Attached id → p ∈ tree.parts id → ¬ tree.Reaches p id :=
    fun hid hp hback => hwf.linkedOnce.irrefl hid (strictlyReaches_iff.2 ⟨_, hp, hback⟩)
  induction h generalizing n with
  | @wrapped id inner chain only below ih =>
    -- the node is the block, in the single statement, or beside it
    have hinner := mem_parts_of_onlyStatement? only
    simp only [plays_wrapped hwf hid only below]
    rcases reaches_iff.1 hn with rfl | ⟨p, hp, hpn⟩
    · refine ⟨.wrapper, .inl ⟨rfl, rfl⟩, ?_⟩
      rintro part (⟨-, rfl⟩ | ⟨hself, -⟩ | hplays)
      · rfl
      · exact absurd (.refl _) (hbelow hid hself)
      · exact absurd (below.reaches_of_plays hplays) (hbelow hid hinner)
    by_cases hpi : p = inner
    · subst hpi
      obtain ⟨part, hpart, honly⟩ := ih (hid.of_mem hp) hpn
      refine ⟨part, .inr (.inr hpart), ?_⟩
      rintro other (⟨rfl, -⟩ | ⟨hmem, hne, -⟩ | hplays)
      · exact absurd hpn (hbelow hid hp)
      · exact absurd (part_unique hwf hid hmem hp (.refl n) hpn) hne
      · exact honly other hplays
    · -- beside the single statement there are comments, and nothing is below a comment
      obtain ⟨text, htext⟩ := comment_of_onlyStatement? hwf hid only hp hpi
      obtain rfl : p = n := by
        rcases reaches_iff.1 hpn with heq | ⟨d, hd, -⟩
        · exact heq
        · simp [parts_eq_children htext, Kind.children] at hd
      refine ⟨.comment, .inr (.inl ⟨hp, hpi, rfl⟩), ?_⟩
      rintro other (⟨rfl, -⟩ | ⟨-, -, rfl⟩ | hplays)
      · exact absurd (.refl _) (hbelow hid hp)
      · rfl
      · exact absurd (part_unique hwf hid hp hinner (.refl p) (below.reaches_of_plays hplays)) hpi
  | @guarded id cond branch chain guard below ih =>
    have hparts := parts_of_guard? guard
    have hcond : cond ∈ tree.parts id := by simp [hparts]
    have hbranch : branch ∈ tree.parts id := by simp [hparts]
    -- the node is the guard, in its condition, or in its branch
    have hne : cond ≠ branch := by
      have honce := hwf.linkedOnce.once id hid
      rw [hparts] at honce
      rintro rfl
      simp at honce
    simp only [plays_guarded hwf hid guard below]
    rcases reaches_iff.1 hn with rfl | ⟨p, hp, hpn⟩
    · refine ⟨.guard, .inl ⟨rfl, rfl⟩, ?_⟩
      rintro part (⟨-, rfl⟩ | ⟨hself, -⟩ | ⟨inside, hplays, -⟩)
      · rfl
      · exact absurd hself (hbelow hid hcond)
      · exact absurd (below.reaches_of_plays hplays) (hbelow hid hbranch)
    obtain rfl | rfl : p = cond ∨ p = branch := by simpa [hparts] using hp
    · -- a node in the condition is not in the branch, whatever part it would have there
      refine ⟨.condition 0, .inr (.inl ⟨hpn, rfl⟩), ?_⟩
      rintro part (⟨rfl, -⟩ | ⟨-, rfl⟩ | ⟨inside, hplays, -⟩)
      · exact absurd hpn (hbelow hid hp)
      · rfl
      · exact absurd (part_unique hwf hid hp hbranch hpn (below.reaches_of_plays hplays)) hne
    · -- and a node in the branch is not in the condition
      obtain ⟨part, hpart, honly⟩ := ih (hid.of_mem hp) hpn
      refine ⟨part.inward, .inr (.inr ⟨part, hpart, rfl⟩), ?_⟩
      rintro other (⟨rfl, -⟩ | ⟨hin, -⟩ | ⟨inside, hplays, rfl⟩)
      · exact absurd hpn (hbelow hid hp)
      · exact absurd (part_unique hwf hid hcond hp hin hpn) hne
      · rw [honly inside hplays]
  | @bare id unwrapped unguarded =>
    simp only [plays_bare hwf hid]
    exact ⟨.action, ⟨hn, rfl⟩, fun part hpart => hpart.2⟩

/-! ### Guards and the action -/

theorem guard_pairs (h : tree.Peels id chain) :
    List.Forall₂ (fun guard cond => ∃ branch,
      tree.stmt? guard = some (.branch (some cond) (some branch) none)) chain.guards
        chain.conditions := by
  induction h with
  | wrapped _ _ ih => exact ih
  | guarded guard _ ih => exact .cons ⟨_, stmt?_eq_some.2 (guard?_eq_some guard)⟩ ih
  | bare => exact .nil

/-- What is further inside is further down. -/
theorem nested (h : tree.Peels id chain) :
    (chain.guards ++ [chain.action]).Pairwise tree.StrictlyReaches := by
  induction h with
  | wrapped _ _ ih => exact ih
  | @guarded id cond branch chain guard below ih =>
    refine List.pairwise_cons.2 ⟨fun m hm => ?_, ih⟩
    have hbelow : tree.Reaches branch m := by
      rcases List.mem_append.1 hm with hm | hm
      · exact below.reaches_guard hm
      · exact List.mem_singleton.1 hm ▸ below.reaches_action
    exact strictlyReaches_iff.2 ⟨branch, by simp [parts_of_guard? guard], hbelow⟩
  | bare => exact List.pairwise_singleton _ _

/-- **Nothing is left to be taken off.** -/
theorem action_bare (h : tree.Peels id chain) :
    tree.onlyStatement? chain.action = none ∧ GuardChain.guard? tree chain.action = none := by
  induction h with
  | wrapped _ _ ih => exact ih
  | guarded _ _ ih => exact ih
  | bare unwrapped unguarded => exact ⟨unwrapped, unguarded⟩

theorem splits (h : tree.Peels id chain) (hwf : tree.WellFormed) (hid : tree.Attached id) :
    chain.Splits tree id where
  parts _ hn := h.existsUnique_part hwf hid hn
  guards := h.guard_pairs
  nested := h.nested
  unwrapped stmts hblock hlength := by
    obtain ⟨single, hsingle⟩ := List.length_eq_one_iff.1 hlength
    -- otherwise the walk would have gone on into that statement
    have hnone := h.action_bare.1
    simp [onlyStatement?, hblock, Stmt.block?, hsingle] at hnone
  unguarded cond branch hif := by
    have hnone := h.action_bare.2
    simp [GuardChain.guard?, hif] at hnone

end Peels

/-! ### The bound of the search -/

/-- **No further steps** find anything else. -/
theorem Grounded.unwrapSingleBlock_settled (hg : tree.Grounded id) {steps : Nat}
    (h : tree.pathBound ≤ steps) :
    innermostWithin tree.onlyStatement? steps id = tree.unwrapSingleBlock id := by
  have hweight : tree.weight id ≤ tree.pathBound := weight_le.trans (Nat.le_succ _)
  refine hg.steps_irrelevant (fun i j x hx => ?_) (hweight.trans h) hweight
  rw [innermostWithin, innermostWithin]
  cases hinner : tree.onlyStatement? x with
  | none => rfl
  | some inner => exact hx inner (.of_mem (mem_parts_of_onlyStatement? hinner))

theorem Grounded.within_settled (hg : tree.Grounded id) {steps : Nat} (h : tree.pathBound ≤ steps) :
    GuardChain.within tree steps id = GuardChain.within tree tree.pathBound id := by
  have hweight : tree.weight id ≤ tree.pathBound := weight_le.trans (Nat.le_succ _)
  refine hg.steps_irrelevant (fun i j x hx => ?_) (hweight.trans h) hweight
  rw [GuardChain.within, GuardChain.within]
  cases hguard : GuardChain.guard? tree x with
  | none => rfl
  | some parts =>
    -- the next step is at the branch, without its braces, which is strictly below
    obtain ⟨cond, branch⟩ := parts
    refine congrArg (GuardChain.guarded x cond) (hx _ (strictlyReaches_iff.2 ⟨branch, ?_, ?_⟩))
    · simp [parts_of_guard? hguard]
    · exact tree.reaches_unwrapSingleBlock branch

end Tree

/-! ### Bodies -/

namespace GuardChain

/-- **The chain of a body divides it up**, and is the same however many steps are allowed to find
it. -/
theorem splits_of (hwf : tree.WellFormed) (hbody : tree.isAttached body = .ok true) :
    (of tree body).Splits tree body ∧
      ∀ steps, tree.pathBound ≤ steps →
        within tree steps (Tree.innermostWithin tree.onlyStatement? steps body) = of tree body := by
  have hattached := hwf.attached_of_isAttached hbody
  have hg := hwf.grounded hattached
  refine ⟨hg.peels_of.splits hwf hattached, fun steps h => ?_⟩
  have hinner : tree.Grounded (tree.unwrapSingleBlock body) :=
    hg.of_reaches (tree.reaches_unwrapSingleBlock body)
  rw [hg.unwrapSingleBlock_settled h, hinner.within_settled h, of]

/-- A loop that runs something if two conditions hold, with a comment in each of the blocks. -/
def waitingLoop : Tree where
  nodes := #[
    ⟨.expr (.name "source" (some ⟨0⟩)), some ⟨11⟩, Tree.placeOf 0⟩,
    ⟨.comment "// not at once", some ⟨10⟩, Tree.placeOf 1⟩,
    ⟨.expr (.name "ready" none), some ⟨9⟩, Tree.placeOf 2⟩,
    ⟨.expr (.name "waiting" none), some ⟨8⟩, Tree.placeOf 3⟩,
    ⟨.comment "// now", some ⟨7⟩, Tree.placeOf 4⟩,
    ⟨.expr (.call ⟨none, "run", [], none⟩), some ⟨6⟩, Tree.placeOf 5⟩,
    ⟨.stmt (.expr ⟨5⟩), some ⟨7⟩, Tree.placeOf 6⟩,
    ⟨.stmt (.block [⟨4⟩, ⟨6⟩]), some ⟨8⟩, Tree.placeOf 7⟩,
    ⟨.stmt (.branch (some ⟨3⟩) (some ⟨7⟩) none), some ⟨9⟩, Tree.placeOf 8⟩,
    ⟨.stmt (.branch (some ⟨2⟩) (some ⟨8⟩) none), some ⟨10⟩, Tree.placeOf 9⟩,
    ⟨.stmt (.block [⟨1⟩, ⟨9⟩]), some ⟨11⟩, Tree.placeOf 10⟩,
    ⟨.stmt (.forEach ⟨⟨1⟩, some ⟨0⟩, some ⟨10⟩⟩), none, Tree.placeOf 11⟩]
  vars :=
    #[⟨"source", .simple "List", .parameter, false⟩, ⟨"x", .simple "Item", .loopParameter, false⟩]
  root := ⟨11⟩
  scope := .inStatic "Sample"
  revision := 0

theorem wellFormed_waitingLoop : waitingLoop.WellFormed := .of_isInOrder (by decide)

/-- **The comment in the inner block** is a comment, and has no other part. -/
theorem splits_waitingLoop : of waitingLoop ⟨10⟩ = ⟨[⟨9⟩, ⟨8⟩], [⟨2⟩, ⟨3⟩], ⟨6⟩⟩ ∧
    (of waitingLoop ⟨10⟩).Splits waitingLoop ⟨10⟩ ∧
    ∀ part, (of waitingLoop ⟨10⟩).Plays waitingLoop ⟨10⟩ ⟨4⟩ part ↔ part = .comment := by
  have hattached : waitingLoop.isAttached ⟨10⟩ = .ok true := by cbv
  have hchain : of waitingLoop ⟨10⟩ = ⟨[⟨9⟩, ⟨8⟩], [⟨2⟩, ⟨3⟩], ⟨6⟩⟩ := by cbv
  obtain ⟨hsplits, -⟩ := splits_of wellFormed_waitingLoop hattached
  have hwraps : waitingLoop.Wraps ⟨10⟩ (of waitingLoop ⟨10⟩).action ⟨7⟩ := by
    rw [hchain]
    exact ⟨by decide, Tree.mem_preorder_iff.1 (by decide),
      Tree.strictlyReaches_iff.2 ⟨⟨6⟩, by decide, .refl _⟩⟩
  have hcomment : (of waitingLoop ⟨10⟩).Plays waitingLoop ⟨10⟩ ⟨4⟩ .comment :=
    .comment hwraps (by decide) (by decide)
  -- it has exactly one part, so the part that is known is the one
  obtain ⟨part, -, honly⟩ := hsplits.parts ⟨4⟩ (Tree.mem_preorder_iff.1 (by decide))
  refine ⟨hchain, hsplits, fun other => ⟨fun hother => ?_, fun hother => hother ▸ hcomment⟩⟩
  exact (honly other hother).trans (honly .comment hcomment).symm

end GuardChain

end LoopToStream
