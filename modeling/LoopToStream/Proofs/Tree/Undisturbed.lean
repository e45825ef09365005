import LoopToStream.Proofs.Flow.Bounds
import LoopToStream.Proofs.Tree.Printing

/-!
# Code that a change elsewhere leaves alone

Looking at a piece of code reads more of a tree than the code: how the code is reached from the top,
which statement is the first to declare a variable, and every write to it. `Tree.Undisturbed` says
what has to be left of all that by a change elsewhere, so that the code looks the same afterwards.
The change may give up a variable, provided that the code does not mention it.

* `SameBelow.skipParens_eq`, `SameBelow.preorderWhere_eq`, `SameBelow.source_eq` — what is read of
  the code alone;
* `Undisturbed.climb_eq` — the way up from the code, where the judgement on the way is the same, and
  `Undisturbed.climb_eq_inside` — a way up that ends in the code;
* `Undisturbed.sameFinality` — the one flow query that reads the whole tree.
-/

namespace LoopToStream

open Attempt (Answered)

variable {α β ε : Type}

/-! ### Walks that agree -/

/-- A walk that finds the same at each of its nodes. -/
theorem Flow.look_congr {flow : Flow} {tree next : Tree} {see see' : NodeId → Lookup (List α)}
    {ids : List NodeId} (before : Nat)
    (hids : ∀ id ∈ ids, id.index < tree.size ∧ id.index < next.size)
    (hsee : ∀ id ∈ ids, see' id = see id) :
    flow.look next see' before ids = flow.look tree see before ids := by
  induction ids generalizing before with
  | nil => rfl
  | cons id rest ih =>
    obtain ⟨htree, hnext⟩ := hids id (by simp)
    obtain ⟨node, -, hnode⟩ := Tree.node_of_lt htree
    obtain ⟨node', -, hnode'⟩ := Tree.node_of_lt hnext
    rw [look, look, hsee id (by simp), hnode, hnode',
      ih (before + 1) (fun x hx => hids x (by simp [hx])) fun x hx => hsee x (by simp [hx])]
    rfl

/-- Successors that agree on what can be reached. -/
theorem depthFirst_congr_of_reaches {next next' : NodeId → List NodeId} (fuel : Nat) {a : NodeId}
    (h : ∀ n, Relation.ReflTransGen (fun p c => c ∈ next p) a n → next' n = next n) :
    depthFirst next' fuel a [] = depthFirst next fuel a [] := by
  induction fuel generalizing a with
  | zero => rfl
  | succ fuel ih =>
    rw [depthFirst_succ, depthFirst_succ, h a .refl]
    exact congrArg _ (List.flatMap_congr fun c hc => ih fun n hn => h n (hn.head hc))

namespace Tree

variable {tree tree' next : Tree} {a b c n id : NodeId} {v hidden : VarId}

/-! ### What is read of the code alone -/

namespace SameBelow

theorem symm (h : tree.SameBelow tree' a) : tree'.SameBelow tree a := by
  intro n hn
  suffices hreach : tree.Reaches a n from (h n hreach).symm
  induction hn with
  | refl => exact .refl _
  | tail _ hc ih => exact ih.tail ((h.of_reaches ih).parts_eq ▸ hc)

theorem reaches_iff (h : tree.SameBelow tree' a) : tree'.Reaches a n ↔ tree.Reaches a n :=
  ⟨h.symm.reaches, h.reaches⟩

variable (h : tree.SameBelow tree' a) (hg : tree.Grounded a)
include h

theorem expr?_eq : tree'.expr? a = tree.expr? a := by rw [expr?, expr?, h a (.refl a)]

theorem stmt?_eq : tree'.stmt? a = tree.stmt? a := by rw [stmt?, stmt?, h a (.refl a)]

theorem comment?_eq : tree'.comment? a = tree.comment? a := by
    rw [comment?, comment?, h a (.refl a)]

theorem call?_eq : tree'.call? a = tree.call? a := by rw [call?, call?, h.expr?_eq]

theorem forEach?_eq : tree'.forEach? a = tree.forEach? a := by rw [forEach?, forEach?, h.stmt?_eq]

theorem isBlock_eq : tree'.isBlock a = tree.isBlock a := by rw [isBlock, isBlock, h.stmt?_eq]

theorem isClosure_eq : tree'.isClosure a = tree.isClosure a := by
  rw [isClosure, isClosure, h.expr?_eq]

theorem expr?_skipParens_eq : tree'.expr? (tree.skipParens a) = tree.expr? (tree.skipParens a) :=
  (h.of_reaches (tree.reaches_skipParens _)).expr?_eq

include hg

theorem skipParens_eq : tree'.skipParens a = tree.skipParens a := by
  induction hg with
  | @layer a kind here below ih =>
    have hg : tree.Grounded a := .layer here below
    -- both trees have the same parentheses here, so the same content is looked at next
    have hparen : tree'.parenthesised? a = tree.parenthesised? a := by
      rw [parenthesised?, parenthesised?, h.expr?_eq]
    rw [(h.grounded hg).skipParens_eq, hg.skipParens_eq, hparen]
    cases hinner : tree.parenthesised? a with
    | none => rfl
    | some inner =>
      have hmem : inner ∈ tree.parts a := by simp [parts_of_parenthesised? hinner]
      exact ih inner (parts_eq_children here ▸ hmem) (h.of_reaches (.of_mem hmem))

theorem variableAt?_eq : tree'.variableAt? a = tree.variableAt? a := by
  rw [variableAt?, variableAt?, h.skipParens_eq hg, h.expr?_skipParens_eq]

/-- Going in under the same conditions lists the same. -/
theorem preorderWhere_eq (hsize : tree.size ≤ tree'.size) {enter enter' : NodeId → Bool}
    (henter : ∀ n, tree.Reaches a n → enter' n = enter n) :
    tree'.preorderWhere enter' a = tree.preorderWhere enter a := by
  -- a walk goes on to parts only
  have hsub : ∀ n, ∀ c ∈ (if n = a ∨ enter n then tree.parts n else []), c ∈ tree.parts n := by
    intro n c hc
    split at hc
    · exact hc
    · simp at hc
  have hle : tree.weight a ≤ tree.size := weight_le
  calc tree'.preorderWhere enter' a
      _ = depthFirst (fun n => if n = a ∨ enter n then tree.parts n
          else []) tree'.pathBound a [] := by
        refine depthFirst_congr_of_reaches _ fun n hn => ?_
        have hreach : tree.Reaches a n := Relation.ReflTransGen.mono (fun p c => hsub p c) _ _ hn
        rw [henter n hreach, (h.of_reaches hreach).parts_eq]
      _ = tree.preorderWhere enter a :=
        -- the longer table only allows for more steps
        hg.steps_irrelevant (f := fun i x => depthFirst
            (fun n => if n = a ∨ enter n then tree.parts n else []) i x [])
          (fun i j x hx => depthFirst_congr _ i j x fun c hc => hx c (.of_mem (hsub x c hc)))
          (by rw [pathBound]; omega) (by rw [pathBound]; omega)

theorem source_eq (hvars : tree'.vars = tree.vars) (options : Layout.Options) (showIds : Bool) :
    tree'.source options showIds a = tree.source options showIds a := by
  have hvar : tree'.var = tree.var := funext fun v => by rw [var, var, hvars]
  rw [source, source, fragment, fragment, hvar, h.bottomUp_eq hg]

theorem text_eq (hvars : tree'.vars = tree.vars) : tree'.text a = tree.text a :=
  h.source_eq hg hvars .compact false

end SameBelow

/-! ### Writes -/

/-- **What the expression at an id overwrites**: the target of an assignment, with or without an
operator, or the operand of an increment or decrement. -/
inductive Overwrites (tree : Tree) (site target : NodeId) : Prop where
  | assign {op : Option BinaryOp} {value : NodeId}
      (here : tree.kind? site = some (.expr (.assign op target value)))
  | step {op : UnaryOp} (here : tree.kind? site = some (.expr (.unary op target)))
      (steps : op ∈ [.preInc, .preDec, .postInc, .postDec])

theorem Overwrites.mem_parts {site target : NodeId} (h : tree.Overwrites site target) :
    target ∈ tree.parts site := by
  cases h with
  | assign here => simp [parts_eq_children here, Kind.children, Expr.children]
  | step here _ => simp [parts_eq_children here, Kind.children, Expr.children]

/-- The flow queries see what is overwritten. -/
theorem writtenAt?_eq_some {site target : NodeId} :
    Flow.writtenAt? tree site = some target ↔ tree.Overwrites site target := by
  rw [Flow.writtenAt?]
  constructor
  · intro h
    -- an assignment writes its target, an operator that steps its operand, and all else nothing
    split at h
    · next op target' value he =>
      obtain rfl := Option.some.inj h
      exact .assign (expr?_eq_some.1 he)
    · next op operand he =>
      split at h
      · next hwrites =>
        obtain rfl := Option.some.inj h
        exact .step (expr?_eq_some.1 he) (by cases op <;> simp_all [UnaryOp.writesOperand])
      · cases h
    · cases h
  · intro h
    cases h with
    | assign here => rw [expr?_eq_some.2 here]
    | @step op here steps =>
      -- an operator that steps writes its operand
      have hwrites : op.writesOperand = true := by cases op <;> simp_all [UnaryOp.writesOperand]
      rw [expr?_eq_some.2 here]
      exact if_pos hwrites

/-- The expression at an id writes to a variable. -/
def writesTo (tree : Tree) (v : VarId) (id : NodeId) : Bool :=
  (Flow.writtenAt? tree id).bind tree.variableAt? = some v

/-- The expressions that write to a variable, in source order. -/
def writeSites (tree : Tree) (v : VarId) : List NodeId :=
  (tree.preorder tree.root).filter (tree.writesTo v)

theorem mem_writeSites : n ∈ tree.writeSites v ↔ tree.Attached n ∧ tree.writesTo v n = true := by
  rw [writeSites, List.mem_filter, mem_preorder_iff]
  rfl

/-- Without bounds, all writes are found. -/
theorem Grounded.writes_eq (hg : tree.Grounded a) :
    Flow.unbounded.writes tree a = .ok ((tree.preorder a).flatMap fun id =>
      (((Flow.writtenAt? tree id).bind tree.variableAt?).map fun var => (id, var)).toList) :=
  Flow.query_unbounded hg fun _ => rfl

/-- **Asking for finality without bounds** reads the sites of the writes. -/
theorem WellFormed.isEffectivelyFinal_eq (hwf : tree.WellFormed) (v : VarId) (place : NodeId) :
    Flow.unbounded.isEffectivelyFinal tree v place = (do
      let declared ← tree.var v
      if declared.isFinal then return true
      match declared.kind with
      | .localVariable =>
        match ← Flow.hasInitialValue? tree v with
        | some true => return (tree.writeSites v).isEmpty
        | some false =>
          match tree.writeSites v with
          | [] => return true
          | [site] => return !(← tree.isAncestor place site)
          | _ => return false
        | none => return false
      | _ => return (tree.writeSites v).isEmpty) := by
  -- a node makes one write at most, so filtering the writes is filtering the nodes
  have hsites : ∀ ids : List NodeId, ((ids.flatMap fun id =>
      (((Flow.writtenAt? tree id).bind tree.variableAt?).map fun var => (id, var)).toList).filter
        fun write => write.2 = v).map Prod.fst = ids.filter (tree.writesTo v) := by
    intro ids
    induction ids with
    | nil => rfl
    | cons id rest ih =>
      rw [List.flatMap_cons, List.filter_append, List.map_append, ih, List.filter_cons, writesTo]
      cases (Flow.writtenAt? tree id).bind tree.variableAt? with
      | none => simp
      | some w => by_cases hw : w = v <;> simp [hw]
  rw [Flow.isEffectivelyFinal, (hwf.grounded attached_root).writes_eq]
  simp only [ok_bind, hsites]
  rfl

/-! ### Code that is left alone -/

/-- In some code, variables but one are found to be as final as before. -/
def SameFinality (tree next : Tree) (flow : Flow) (hidden : VarId) (a : NodeId) : Prop :=
  ∀ v n, v ≠ hidden → tree.Reaches a n →
    flow.isEffectivelyFinal next v n = flow.isEffectivelyFinal tree v n

/-- **Code that is left alone** by a change elsewhere that gives up a variable: it is as it was,
hangs where it did, and all other variables are declared and written where they were. -/
structure Undisturbed (tree next : Tree) (hidden : VarId) (a : NodeId) : Prop where
  before : tree.WellFormed
  after : next.WellFormed
  size_le : tree.size ≤ next.size
  vars_eq : next.vars = tree.vars
  scope_eq : next.scope = tree.scope
  was_attached : tree.Attached a
  attached : next.Attached a
  same : tree.SameBelow next a
  unmentioned : ∀ n, tree.Reaches a n → (tree.expr? n).bind Expr.var? ≠ some hidden
  /-- On the way up from the code, parents are as they were. -/
  parents : ∀ n, tree.Attached n → tree.Reaches n a → next.parent? n = tree.parent? n
  labels : ∀ n label, tree.Attached n → tree.Reaches n a →
    Flow.isJumpTarget next (some label) n = Flow.isJumpTarget tree (some label) n
  declarations : ∀ v, v ≠ hidden → next.declarationOf? v = tree.declarationOf? v ∧
    Flow.hasInitialValue? next v = Flow.hasInitialValue? tree v
  writes : ∀ v, v ≠ hidden → next.writeSites v = tree.writeSites v

namespace Undisturbed

variable (h : tree.Undisturbed next hidden a)
include h

theorem sameBelow (hn : tree.Reaches a n) : tree.SameBelow next n := h.same.of_reaches hn

theorem grounded (hn : tree.Reaches a n) : tree.Grounded n :=
  h.before.grounded (h.was_attached.reaches hn)

theorem attached_of_reaches (hn : tree.Reaches a n) : next.Attached n :=
  h.attached.reaches (h.same.reaches hn)

theorem lt_size (hn : tree.Reaches a n) : n.index < tree.size :=
  h.before.lt_size (h.was_attached.reaches hn)

theorem var_eq (v : VarId) : next.var v = tree.var v := by rw [var, var, h.vars_eq]

theorem ne_hidden (hn : tree.Reaches a n) (hv : (tree.expr? n).bind Expr.var? = some v) :
    v ≠ hidden := by
  rintro rfl
  exact h.unmentioned n hn hv

theorem descendants_eq (hn : tree.Reaches a n) : next.descendants n = tree.descendants n := by
  rw [h.before.descendants_eq (h.was_attached.reaches hn),
    h.after.descendants_eq (h.attached_of_reaches hn), (h.sameBelow hn).preorder_eq (h.grounded hn)]

theorem descendantsWhere_eq (hn : tree.Reaches a n) {enter enter' : NodeId → Bool}
    (henter : ∀ m, tree.Reaches n m → enter' m = enter m) :
    next.descendantsWhere enter' n = tree.descendantsWhere enter n := by
  rw [(h.before.descendantsWhere_eq enter (h.was_attached.reaches hn)).1,
    (h.after.descendantsWhere_eq enter' (h.attached_of_reaches hn)).1,
    (h.sameBelow hn).preorderWhere_eq (h.grounded hn) h.size_le henter]

/-! ### The way up -/

/-- **Being at or above a node** is the same, for code that is left alone. -/
theorem isAncestor_eq (hn : tree.Reaches a n) {m : NodeId} (hm : m.index < tree.size) :
    next.isAncestor n m = tree.isAncestor n m := by
  rw [h.before.isAncestor_eq_of_attached (h.was_attached.reaches hn) hm,
    h.after.isAncestor_eq_of_attached (h.attached_of_reaches hn) (hm.trans_le h.size_le)]
  exact congrArg Except.ok (decide_eq_decide.2 (h.sameBelow hn).reaches_iff)

/-- Of the parts of the code, parents are as they were as well. -/
theorem parent?_eq (hattached : tree.Attached n) (hn : tree.Reaches n a ∨ tree.Reaches a n) :
    next.parent? n = tree.parent? n := by
  rcases hn with hn | hn
  · exact h.parents n hattached hn
  · rcases reaches_iff_eq_or_strictly.1 hn with rfl | hstrict
    · exact h.parents _ hattached (.refl _)
    · obtain ⟨p, hp, hnp⟩ := strictlyReaches_iff_last.1 hstrict
      rw [h.before.parent?_of_mem (h.was_attached.reaches hp) hnp,
        h.after.parent?_of_mem (h.attached_of_reaches hp) ((h.sameBelow hp).parts_eq ▸ hnp)]

/-- **The way up from the code**, where the same is made of each step. By induction on the way down
from the top: what is above the code, or in it, is so for the node before. -/
theorem climb_eq {judge judge' : NodeId → NodeId → Option β} (hn : tree.Reaches a n)
    (hjudge : ∀ c p, tree.Attached p → tree.Reaches p a ∨ tree.Reaches a p →
    judge' c p = judge c p) :
    next.climb judge' n = tree.climb judge n := by
  have hway : ∀ m, tree.Attached m → tree.Reaches m a ∨ tree.Reaches a m →
      next.climb judge' m = tree.climb judge m := by
    intro m hm
    induction hm with
    | refl =>
      -- at the top both ways end
      intro hroot
      have hparent := h.parent?_eq attached_root hroot
      rw [h.before.parent?_root] at hparent
      rw [h.before.climb_root,
        h.after.upward.climb_eq (h.before.top_known.trans_le h.size_le), hparent]
    | @tail p c hp hc ih =>
      intro hside
      have hp : tree.Attached p := hp
      have hparent := h.parent?_eq (hp.of_mem hc) hside
      rw [h.before.parent?_of_mem hp hc] at hparent
      -- a node above the code has its parent above it, and one in the code has it there or above
      have hpside : tree.Reaches p a ∨ tree.Reaches a p := by
        rcases hside with hside | hside
        · exact .inl (hside.head hc)
        · rcases reaches_iff_eq_or_strictly.1 hside with rfl | hstrict
          · exact .inl (.of_mem hc)
          · obtain ⟨q, hq, hcq⟩ := strictlyReaches_iff_last.1 hstrict
            obtain rfl := h.before.linkedOnce.one_linker q p c (h.was_attached.reaches hq) hp hcq hc
            exact .inr hq
      have hlt := (h.before.lt_size (hp.of_mem hc)).trans_le h.size_le
      rw [h.before.climb_part hp hc, h.after.upward.climb_eq hlt, hparent]
      simp only [hjudge c p hp hpside, ih hpside]
  exact hway n (h.was_attached.reaches hn) (.inr hn)

omit h in
/-- **A way up that ends in the code**, by a judgement on the node that it has to come through. -/
theorem climb_eq_inside (h : tree.Undisturbed next hidden a)
    {judge judge' : NodeId → NodeId → Option β} (hb : tree.Reaches a b)
    (hn : tree.StrictlyReaches b n)
    (hjudge : ∀ c p, tree.Reaches b p → c ∈ tree.parts p → judge' c p = judge c p)
    (hstop : ∀ c ∈ tree.parts b, (judge c b).isSome) :
    next.climb judge' n = tree.climb judge n := by
  -- one step up inside the code is judged alike
  have hstep : ∀ p c, tree.Reaches b p → c ∈ tree.parts p →
      (judge c p = none → next.climb judge' p = tree.climb judge p) →
      next.climb judge' c = tree.climb judge c := by
    intro p c hp hc ih
    have hap := hb.trans hp
    rw [h.before.climb_part (h.was_attached.reaches hap) hc,
      h.after.climb_part (h.attached_of_reaches hap) ((h.sameBelow hap).parts_eq ▸ hc),
      hjudge c p hp hc]
    cases hverdict : judge c p with
    | some verdict => rfl
    | none => exact ih hverdict
  induction hn with
  | single hc =>
    refine hstep b _ (.refl b) hc fun hnone => ?_
    -- the way is decided at the node at the latest
    have hsome := hstop _ hc
    rw [hnone] at hsome
    cases hsome
  | tail hp hc ih => exact hstep _ _ (StrictlyReaches.reaches hp) hc fun _ => ih

/-! ### Finality -/

/-- **A variable is as final as before**, for code that is left alone. -/
theorem sameFinality : tree.SameFinality next .unbounded hidden a := by
  intro v n hv hn
  rw [h.before.isEffectivelyFinal_eq, h.after.isEffectivelyFinal_eq, h.var_eq,
    (h.declarations v hv).2, h.writes v hv]
  refine bind_congr_of_ok fun declared _ => ?_
  split
  · rfl
  · split
    · refine bind_congr_of_ok fun initial _ => ?_
      split
      · rfl
      · split
        · rfl
        · next site hsite =>
          -- a site is where some write is
          have hmem : site ∈ tree.writeSites v := by simp [hsite]
          rw [h.isAncestor_eq hn (h.before.lt_size (mem_writeSites.1 hmem).1)]
        · rfl
      · rfl
    · rfl

end Undisturbed

end Tree

end LoopToStream
