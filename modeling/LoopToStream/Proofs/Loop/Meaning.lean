import LoopToStream.Proofs.Loop.Candidate
import LoopToStream.Proofs.Loop.Chain

/-!
# What the body of a loop does

The parts of a loop can mean anything: a `Reading` gives each expression a function from the
element and the state to a value and a new state, and each statement a change of the state. What a
reading does not choose is how the body is put together from its parts (`Reading.run`):

* a block runs its statements in order, and the comments between them do nothing;
* an `if` without `else` runs its branch if the value of the condition is true;
* parentheses are seen through, and the variable of the loop is the element;
* a statement that is known to add a value to a collection evaluates the value and appends it.

Taking the guards off an action does not change what is run: the conditions are asked in order, and
if all hold, the action is run (`Guarded.run_eq`).
-/

namespace LoopToStream

/-! ### Readings -/

/-- What the parts of a loop mean, over values `V` and states `S`. -/
structure Reading (V S : Type) where
  /-- The value of an expression for an element. -/
  value : NodeId → V → StateM S V
  /-- A value counts as true. -/
  holds : V → Bool
  /-- What code does that is run for an element. -/
  effect : NodeId → V → StateM S Unit
  /-- Adds a value to the collection. -/
  append : V → StateM S Unit

namespace Reading

variable {V S : Type} (reading : Reading V S) (tree : Tree) (param : VarId)

/-- The value of the expression at `id` for the element `x`. -/
def eval (id : NodeId) (x : V) : StateM S V :=
  match tree.kind? (tree.skipParens id) with
  | some (.expr (.name _ (some var))) =>
    if var = param then pure x else reading.value (tree.skipParens id) x
  | _ => reading.value (tree.skipParens id) x

/-- Runs the layer at an id for the element `x`, with `go` for the statements in it. The statements
that add a value to a collection are those for which `adds` gives the value. -/
def runLayer (adds : NodeId → Option NodeId) (x : V) (go : NodeId → StateM S Unit) (id : NodeId) :
    StateM S Unit :=
  match adds id, tree.kind? id with
  | some value, _ => do reading.append (← reading.eval tree param value x)
  | none, some (.comment _) => pure ()
  | none, some (.stmt (.block ids)) => ids.forM go
  | none, some (.stmt (.branch (some cond) (some branch) none)) => do
    if reading.holds (← reading.eval tree param cond x) then go branch
  | none, some (.stmt (.expr value)) => reading.effect (tree.skipParens value) x
  | none, _ => reading.effect id x

/-- Runs the code at an id, going down so many steps at most. -/
def runWithin (adds : NodeId → Option NodeId) (x : V) : Nat → NodeId → StateM S Unit
  | 0, _ => pure ()
  | steps + 1, id => reading.runLayer tree param adds x (runWithin adds x steps) id

/-- Runs the code at an id for the element `x`. -/
def run (adds : NodeId → Option NodeId) (x : V) (id : NodeId) : StateM S Unit :=
  reading.runWithin tree param adds x tree.pathBound id

/-- Asks the conditions for the element `x`, in order and up to the first that does not hold. -/
def allHold (x : V) : List NodeId → StateM S Bool
  | [] => pure true
  | cond :: conds => do
    if reading.holds (← reading.eval tree param cond x) then allHold x conds else pure false

end Reading

/-! ### Running layer by layer -/

variable {V S : Type} {reading : Reading V S} {tree : Tree} {param : VarId} {x : V}
  {adds : NodeId → Option NodeId} {id cond branch action value : NodeId} {conds : List NodeId}

theorem forM_congr {α : Type} {f g : α → StateM S Unit} {l : List α} (h : ∀ a ∈ l, f a = g a) :
    l.forM f = l.forM g := by
  simp only [List.forM_eq_forM]
  induction l with
  | nil => rfl
  | cons a l ih =>
    rw [List.forM_cons, List.forM_cons, h a (by simp), ih fun b hb => h b (by simp [hb])]

/-- What does nothing can be left out. -/
theorem forM_filter {α : Type} {f : α → StateM S Unit} {p : α → Bool} {l : List α}
    (h : ∀ a ∈ l, p a = false → f a = pure ()) : l.forM f = (l.filter p).forM f := by
  simp only [List.forM_eq_forM]
  induction l with
  | nil => rfl
  | cons a l ih =>
    have hrest := ih fun b hb => h b (by simp [hb])
    cases hp : p a with
    | true => rw [List.filter_cons_of_pos hp, List.forM_cons, List.forM_cons, hrest]
    | false =>
      rw [List.filter_cons_of_neg (by simp [hp]), List.forM_cons, h a (by simp) hp,
        pure_bind, hrest]

theorem Reading.runLayer_congr {go go' : NodeId → StateM S Unit}
    (h : ∀ c ∈ tree.parts id, go c = go' c) :
    reading.runLayer tree param adds x go id = reading.runLayer tree param adds x go' id := by
  have hpart : ∀ {kind : Kind NodeId} {c : NodeId}, tree.kind? id = some kind →
      c ∈ kind.children → go c = go' c := fun hkind hc => h _ (Tree.parts_eq_children hkind ▸ hc)
  unfold runLayer
  split
  · rfl
  · rfl
  · next ids _ hkind => exact forM_congr fun c hc => hpart hkind hc
  · next cond branch _ hkind => rw [hpart hkind (by simp [Kind.children, Stmt.children])]
  · rfl
  · rfl

namespace Tree

/-- **Code is run layer by layer.** -/
theorem Grounded.run_eq (hg : tree.Grounded id) :
    reading.run tree param adds x id =
      reading.runLayer tree param adds x (reading.run tree param adds x) id := by
  rw [Reading.run, pathBound, Reading.runWithin]
  refine Reading.runLayer_congr fun c hc => ?_
  exact hg.pathBound_eq (f := reading.runWithin tree param adds x)
    (fun i j a ha => Reading.runLayer_congr fun d hd => ha d (.of_mem hd)) (.of_mem hc)

/-! ### Taking guards off -/

/-- A block with a single statement runs it. -/
theorem WellFormed.run_onlyStatement (hwf : tree.WellFormed) (hid : tree.Attached id)
    (hadds : ∀ n, tree.Holds .statement n ∨ adds n = none) (hno : adds id = none)
    {inner : NodeId} (honly : tree.onlyStatement? id = some inner) :
    reading.run tree param adds x id = reading.run tree param adds x inner := by
  obtain ⟨stmts, hkind, hsingle⟩ := onlyStatement?_eq_some honly
  rw [(hwf.grounded hid).run_eq, Reading.runLayer, hno, hkind]
  -- what else stands in the block is a comment
  have hcomments : ∀ c ∈ stmts, (tree.stmt? c).isSome = false →
      reading.run tree param adds x c = pure () := by
    intro c hc hnone
    have hslot : tree.Holds .blockItem c :=
      hwf.fits id _ hid hkind .blockItem c (by simpa [Kind.slots, Stmt.slots] using hc)
    have hattached : tree.Attached c := hid.of_mem (by
      rw [parts_eq_children hkind]
      exact hc)
    obtain ⟨kind, hc, hadmits⟩ := hslot
    cases kind with
    | stmt s => simp [stmt?_eq_some.2 hc] at hnone
    | expr e => cases hadmits
    | comment text =>
      -- what is added is a statement, so it is not the comment
      have hcomment : adds c = none := by
        refine (hadds c).resolve_left ?_
        rintro ⟨kind, hkind, hadmits⟩
        rw [hc] at hkind
        cases hkind
        cases hadmits
      rw [(hwf.grounded hattached).run_eq, Reading.runLayer, hcomment, hc]
  change stmts.forM (reading.run tree param adds x) = _
  rw [forM_filter hcomments, show stmts.filter _ = [inner] from hsingle]
  simp

/-- A guard asks its condition. -/
theorem Grounded.run_guard (hg : tree.Grounded id) (hno : adds id = none)
    (hguard : GuardChain.guard? tree id = some (cond, branch)) :
    reading.run tree param adds x id = (do
      if reading.holds (← reading.eval tree param cond x) then
        reading.run tree param adds x branch) := by
  rw [hg.run_eq, Reading.runLayer, hno, guard?_eq_some hguard]

/-- **Guards and action.** Code with guards asks the conditions in order and runs the action if all
of them hold. -/
theorem Guarded.run_eq (h : tree.Guarded id conds action) (hwf : tree.WellFormed)
    (hid : tree.Attached id) (hstmt : tree.Holds .statement id)
    (hadds : ∀ n, n ≠ action → adds n = none) :
    reading.run tree param adds x id = (do
      if ← reading.allHold tree param x conds then reading.run tree param adds x action) := by
  have haction := (h.holds hwf hid hstmt).1
  -- what is added is the action, which is a statement wherever the guards are taken off
  have hplaces : ∀ n, tree.Holds .statement n ∨ adds n = none := fun n => by
    by_cases hn : n = action
    · exact .inl (hn ▸ haction)
    · exact .inr (hadds n hn)
  clear hstmt haction
  induction h with
  | @wrapped id inner conds action only below ih =>
    have hmem := mem_parts_of_onlyStatement? only
    -- what is taken off is not the action, which is below it
    have hno : adds id = none := hadds id fun heq =>
      (hwf.grounded hid).not_reaches hmem (heq ▸ below.reaches_action)
    rw [hwf.run_onlyStatement hid hplaces hno only, ih (hid.of_mem hmem) hadds]
  | @guard id cond branch conds action guard below ih =>
    have hmem : branch ∈ tree.parts id := by simp [parts_of_guard? guard]
    have hno : adds id = none := hadds id fun heq =>
      (hwf.grounded hid).not_reaches hmem (heq ▸ below.reaches_action)
    rw [(hwf.grounded hid).run_guard hno guard, ih (hid.of_mem hmem) hadds, Reading.allHold,
      bind_assoc]
    -- both sides ask the condition first, and stop where it does not hold
    refine bind_congr fun value => ?_
    cases reading.holds value <;> simp
  | bare => simp [Reading.allHold]

end Tree

end LoopToStream
