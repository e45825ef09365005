import LoopToStream.Proofs.Loop.Candidate
import LoopToStream.Proofs.Tree.Ancestors

/-!
# Leaving the body of a loop

`Tree.Contained` says that nothing leaves a piece of code, without reference to how that is
found out: outside of function literals there is no `return` and no `throw`, and each jump has
its target inside.

The flow query for exits looks for the target of a jump on the way up from the jump
(`WellFormed.staysInside_eq`). For a jump strictly below the code it finds the target exactly if
it is inside. For a piece of code that is itself a jump it starts above the code, so that a
target outside counts as one inside. `Inspector.contained_iff_of_reported` says that this is the
only way for a reported loop to have a body that leaves it, and `bareBreak_reported` that it is
one.
-/

namespace LoopToStream

namespace Tree

variable {tree : Tree} {a b body n p jump id : NodeId} {label : Option String}

/-! ### What leaves a piece of code -/

/-- The node `n` is `a` or below it, and not inside of a function literal or method reference
between the two. -/
def ReachesOutsideClosures (tree : Tree) : NodeId → NodeId → Prop :=
  Relation.ReflTransGen fun p c => tree.isClosure p = false ∧ c ∈ tree.parts p

/-- A jump, to the statement with a label or to the loop around it. -/
def IsJump (tree : Tree) (label : Option String) (id : NodeId) : Prop :=
  tree.stmt? id = some (.breakTo label) ∨ tree.stmt? id = some (.continueTo label)

/-- The statement that a jump goes to: a loop, or the statement with the label. -/
def IsTarget (tree : Tree) : Option String → NodeId → Prop
  | none, id => ∃ s, tree.stmt? id = some s ∧ s.isLoop = true
  | some label, id => ∃ inner, tree.stmt? id = some (.labeled label inner)

/-- **Nothing leaves the code at `body`.** -/
structure Contained (tree : Tree) (body : NodeId) : Prop where
  no_return : ∀ n value, tree.ReachesOutsideClosures body n →
    tree.stmt? n ≠ some (.giveBack value)
  no_throw : ∀ n value, tree.ReachesOutsideClosures body n →
    tree.stmt? n ≠ some (.throwValue value)
  jumps_inside : ∀ n label, tree.ReachesOutsideClosures body n → tree.IsJump label n →
    ∃ a, tree.Reaches body a ∧ tree.StrictlyReaches a n ∧ tree.IsTarget label a

theorem ReachesOutsideClosures.reaches (h : tree.ReachesOutsideClosures a n) :
    tree.Reaches a n :=
  Relation.ReflTransGen.mono (fun _ _ hstep => hstep.2) _ _ h

/-- What the flow queries look at. -/
theorem mem_preorderWhere_of_reachesOutsideClosures (h : tree.ReachesOutsideClosures a n) :
    n ∈ tree.preorderWhere (fun node => !tree.isClosure node) a := by
  refine mem_preorderWhere_iff.2 (Relation.ReflTransGen.mono (fun p c hstep => ?_) _ _ h)
  exact ⟨.inr (by simp [hstep.1]), hstep.2⟩

theorem isJumpTarget_iff : Flow.isJumpTarget tree label id = true ↔ tree.IsTarget label id := by
  unfold Flow.isJumpTarget IsTarget
  cases label with
  | none => cases h : tree.stmt? id <;> simp [h]
  | some label =>
    cases h : tree.stmt? id with
    | none => simp [h]
    | some s => cases s <;> simp [h, eq_comm]

/-! ### Looking for the target of a jump -/

namespace WellFormed

variable (h : tree.WellFormed)
include h

open Classical in
/-- **Below the code, the target is found exactly if it is inside.** -/
theorem staysInside_eq (hbody : tree.Attached body) (hjump : tree.StrictlyReaches body jump) :
    Flow.staysInside tree body label jump =
      .ok (decide (∃ a, tree.Reaches body a ∧ tree.StrictlyReaches a jump ∧
      tree.IsTarget label a)) := by
  rw [Flow.staysInside,
    h.climb_upTo (fun _ up => Flow.isJumpTarget tree label up) hbody hjump, ok_bind]
  simp only [isJumpTarget_iff, Option.getD_some, exists_goesBy, pure_eq_ok]

theorem staysInside_eq_true (hbody : tree.Attached body) (hjump : tree.StrictlyReaches body jump) :
    Flow.staysInside tree body label jump = .ok true ↔
      ∃ a, tree.Reaches body a ∧ tree.StrictlyReaches a jump ∧ tree.IsTarget label a := by
  rw [h.staysInside_eq hbody hjump]
  simp

end WellFormed

/-- Whether a statement is an exit can be told where the parents are known. -/
theorem ParentsKnown.exists_exitAt (hup : tree.ParentsKnown) (hn : n.index < tree.size)
    (body : NodeId) :
    ∃ found, Flow.exitAt tree body n = .ok found := by
  -- only the jumps ask for anything, namely where they lead to, and that is found by climbing
  have hstays : ∀ label, ∃ answer, Flow.staysInside tree body label n = .ok answer := by
    intro label
    obtain ⟨answer, hanswer⟩ := hup.exists_climb hn _
    exact ⟨_, by rw [Flow.staysInside, hanswer, ok_bind, pure_eq_ok]⟩
  unfold Flow.exitAt
  split
  · next label hjump =>
    obtain ⟨answer, hanswer⟩ := hstays label
    exact ⟨_, by rw [hanswer, ok_bind, pure_eq_ok]⟩
  · next label hjump =>
    obtain ⟨answer, hanswer⟩ := hstays label
    exact ⟨_, by rw [hanswer, ok_bind, pure_eq_ok]⟩
  · exact ⟨_, rfl⟩
  · exact ⟨_, rfl⟩
  · exact ⟨_, rfl⟩

/-! ### Bodies without exits -/

/-- What is found at each of the nodes that are looked at is part of what is found. -/
theorem look_subset {α : Type} {flow : Flow} {see : NodeId → Lookup (List α)} {before : Nat}
    {ids : List NodeId} {found : List α} (h : flow.look tree see before ids = .ok found)
    (hid : id ∈ ids) : ∃ here, see id = .ok here ∧ here ⊆ found := by
  induction ids generalizing before found with
  | nil => simp at hid
  | cons first rest ih =>
    rw [Flow.look] at h
    -- the walk got past this node, so neither the budget nor the flag stopped it here
    split at h
    · simp at h
    split at h
    · simp at h
    obtain ⟨here, hhere, h⟩ := bind_eq_ok.1 h
    obtain ⟨⟨⟩, -, h⟩ := bind_eq_ok.1 h
    obtain ⟨later, hlater, h⟩ := bind_eq_ok.1 h
    cases h
    rcases List.mem_cons.1 hid with rfl | hid
    · exact ⟨here, Attempt.liftM_eq_ok.1 hhere, List.subset_append_left _ _⟩
    · obtain ⟨there, hthere, hsub⟩ := ih hlater hid
      exact ⟨there, hthere, List.Subset.trans hsub (List.subset_append_right _ _)⟩

/-- A statement that is no exit neither returns nor throws, and is no jump to the outside. -/
theorem exitAt_eq_nil (h : Flow.exitAt tree body n = .ok []) :
    (∀ value, tree.stmt? n ≠ some (.giveBack value)) ∧
      (∀ value, tree.stmt? n ≠ some (.throwValue value)) ∧
      ∀ label, tree.IsJump label n → Flow.staysInside tree body label n = .ok true := by
  -- both sorts of jumps are listed unless they stay inside
  have hjump : ∀ {exit : Exit} {x : Lookup Bool},
      (do return if ← x then [] else [(n, exit)]) = (.ok [] : Lookup _) → x = .ok true := by
    intro exit x hx
    obtain ⟨inside, rfl, hx⟩ := bind_eq_ok.1 hx
    cases inside with
    | true => rfl
    | false => simp at hx
  refine ⟨fun value hstmt => ?_, fun value hstmt => ?_, fun label hlabel => ?_⟩
  · simp [Flow.exitAt, hstmt] at h
  · simp [Flow.exitAt, hstmt] at h
  · rcases hlabel with hstmt | hstmt
    · simp only [Flow.exitAt, hstmt] at h
      exact hjump h
    · simp only [Flow.exitAt, hstmt] at h
      exact hjump h

/-- A body in which no exits are found is left by nothing, unless it is itself a jump. -/
theorem WellFormed.contained_of_exits {flow : Flow} (h : tree.WellFormed)
    (hbody : tree.Attached body) (hexits : flow.exits tree body = .ok [])
    (hjump : ∀ label, ¬ tree.IsJump label body) : tree.Contained body := by
  -- what is found at a node is part of what is found in all, which is nothing
  have hnone : ∀ n, tree.ReachesOutsideClosures body n → Flow.exitAt tree body n = .ok [] := by
    intro n hn
    obtain ⟨here, hhere, hsub⟩ :=
      look_subset hexits (mem_preorderWhere_of_reachesOutsideClosures hn)
    rw [hhere, List.subset_nil.1 hsub]
  refine ⟨fun n value hn => (exitAt_eq_nil (hnone n hn)).1 value,
    fun n value hn => (exitAt_eq_nil (hnone n hn)).2.1 value, fun n label hn hlabel => ?_⟩
  rcases reaches_iff_eq_or_strictly.1 hn.reaches with rfl | hstrict
  · -- the body itself is the one place from which the target is looked for too far up
    exact absurd hlabel (hjump label)
  · exact (h.staysInside_eq_true hbody hstrict).1 ((exitAt_eq_nil (hnone n hn)).2.2 label hlabel)

/-- A statement that is itself a jump has no target inside. -/
theorem WellFormed.not_contained_of_isJump (h : tree.WellFormed) (hbody : tree.Attached body)
    (hjump : tree.IsJump label body) : ¬ tree.Contained body := by
  intro hcontained
  obtain ⟨a, hba, hab, -⟩ := hcontained.jumps_inside body label .refl hjump
  exact h.linkedOnce.irrefl hbody (Relation.TransGen.trans_right hba hab)

end Tree

/-! ### Reported loops -/

/-- The body of a loop hangs in the tree where the loop does. -/
theorem Tree.attached_body {tree : Tree} {loop body : NodeId} {var : VarId}
    {iterated : Option NodeId} (hloop : tree.Attached loop)
    (hforEach : tree.forEach? loop = some ⟨var, iterated, some body⟩) : tree.Attached body := by
  refine hloop.of_mem ?_
  rw [parts_eq_children (forEach?_eq_some.1 hforEach)]
  simp [Kind.children, Stmt.children]

/-- **Which reported loops are left by their body.** Nothing leaves the body of a loop that is
reported, unless the body is a jump and nothing else: its target is looked for from above the
body. -/
theorem Inspector.contained_iff_of_reported (inspector : Inspector) {tree : Tree}
    {loop body : NodeId} {var : VarId} {iterated : Option NodeId} {finding : Finding}
    (hwf : tree.WellFormed) (hattached : tree.isAttached loop = .ok true)
    (hloop : tree.forEach? loop = some ⟨var, iterated, some body⟩)
    (hreported : inspector.inspect tree loop = .ok finding) :
    tree.Contained body ↔ ∀ label, ¬ tree.IsJump label body := by
  obtain ⟨candidate, -, hfound, -⟩ := inspect_eq_ok hreported
  obtain rfl : candidate.body = body := by
    have := hfound.forEach.symm.trans hloop
    simp_all
  have hlt := Tree.lt_size_of_kind? (Tree.forEach?_eq_some.1 hloop)
  have hbody := Tree.attached_body ((hwf.isAttached_eq_true hlt).1 hattached) hloop
  -- a jump in the place of the body has the loop itself for its target, or something above it
  refine ⟨fun hcontained label hjump => ?_, hwf.contained_of_exits hbody hfound.exits_eq⟩
  exact hwf.not_contained_of_isJump hbody hjump hcontained

/-- The loop `for (String x : xs) { while (true) { break; } }`, as a tree. -/
def innerBreak : Tree where
  nodes := #[
    ⟨.expr (.name "xs" (some ⟨0⟩)), some ⟨6⟩, Tree.placeOf 0⟩,
    ⟨.expr (.literal (.bool true)), some ⟨4⟩, Tree.placeOf 1⟩,
    ⟨.stmt (.breakTo none), some ⟨3⟩, Tree.placeOf 2⟩,
    ⟨.stmt (.block [⟨2⟩]), some ⟨4⟩, Tree.placeOf 3⟩,
    ⟨.stmt (.whileLoop ⟨1⟩ ⟨3⟩), some ⟨5⟩, Tree.placeOf 4⟩,
    ⟨.stmt (.block [⟨4⟩]), some ⟨6⟩, Tree.placeOf 5⟩,
    ⟨.stmt (.forEach ⟨⟨1⟩, some ⟨0⟩, some ⟨5⟩⟩), none, Tree.placeOf 6⟩]
  vars := #[⟨"xs", .simple "List", .parameter, false⟩,
    ⟨"x", .simple "String", .loopParameter, false⟩]
  root := ⟨6⟩
  scope := .unknown
  revision := 0

/-- A `break` of a loop inside of the body stays inside. -/
theorem contained_innerBreak : innerBreak.Contained ⟨5⟩ := by
  have hwf : innerBreak.WellFormed := .of_isInOrder (by decide)
  obtain ⟨finding, hreported⟩ :
      ∃ finding, Inspector.standard.inspect innerBreak ⟨6⟩ = .ok finding :=
    ⟨_, by cbv⟩
  have hiff := Inspector.contained_iff_of_reported .standard hwf (by cbv) rfl hreported
  refine hiff.2 fun label hjump => ?_
  rcases hjump with hjump | hjump <;> cases hjump

/-- The loop `for (String x : xs) break;`, as a tree. -/
def bareBreak : Tree where
  nodes := #[
    ⟨.expr (.name "xs" (some ⟨0⟩)), some ⟨2⟩, Tree.placeOf 0⟩,
    ⟨.stmt (.breakTo none), some ⟨2⟩, Tree.placeOf 1⟩,
    ⟨.stmt (.forEach ⟨⟨1⟩, some ⟨0⟩, some ⟨1⟩⟩), none, Tree.placeOf 2⟩]
  vars := #[⟨"xs", .simple "List", .parameter, false⟩,
    ⟨"x", .simple "String", .loopParameter, false⟩]
  root := ⟨2⟩
  scope := .unknown
  revision := 0

/-- **A loop that is left after its first element** is reported all the same. -/
theorem bareBreak_reported :
    bareBreak.WellFormed ∧ bareBreak.isAttached ⟨2⟩ = .ok true ∧
      bareBreak.forEach? ⟨2⟩ = some ⟨⟨1⟩, some ⟨0⟩, some ⟨1⟩⟩ ∧
      (∃ finding, Inspector.standard.inspect bareBreak ⟨2⟩ = .ok finding) ∧
      ¬ bareBreak.Contained ⟨1⟩ := by
  have hwf : bareBreak.WellFormed := .of_isInOrder (by decide)
  refine ⟨hwf, by cbv, rfl, ⟨_, by cbv⟩, ?_⟩
  have hbody : bareBreak.Attached ⟨1⟩ := Tree.Reaches.of_mem (by decide)
  exact hwf.not_contained_of_isJump hbody (.inl rfl : bareBreak.IsJump none ⟨1⟩)

end LoopToStream
