import LoopToStream.Proofs.Loop.Candidate
import LoopToStream.Proofs.Tree.Parentheses

/-!
# Conditions that look into the object around the code

Code that adds to its own object must not be guarded by a condition that may look into this object.
`Target.readsReceiver` looks for calls by what they are made on, and for `this` by what it is given
to. Here this is put in terms of calls only. `Tree.Touches` says of a call that it is made on the
object or gets it as an argument, with a parameter for what is seen of an expression:

* what is found is a call that touches the object by expressions that are looked at as they stand
  (`Target.readsReceiver_eq`), and all of those that are not in function literals are found;
* what should be found is a call that touches it by expressions that are looked at without their
  parentheses.

`Target.isObservedBy_implicitReceiver` compares the two. They differ by calls on a `this` or `super`
in parentheses, and by a `this` in parentheses that is handed over: the condition `(this).isEmpty()`
is taken for one that leaves the object alone (`Target.bagLoop_unnoticed`).
-/

namespace LoopToStream

open Relation

variable {tree : Tree} {a b cond id n up : NodeId} {e : Expr NodeId}

/-- What is handed over by a call or a creation of an object. -/
def Expr.arguments {ι : Type} : Expr ι → List ι
  | call c => c.args
  | create c => c.args
  | _ => []

theorem Expr.mem_children_of_mem_arguments {ι : Type} {e : Expr ι} {arg : ι}
    (h : arg ∈ e.arguments) :
    arg ∈ e.children := by
  cases e <;> simp_all [arguments, children]

namespace Tree

/-- The node `n` is `a` or below it, and not inside of a function literal below `a`. -/
def ReachesOutsideLambdas (tree : Tree) (a : NodeId) : NodeId → Prop :=
  ReflTransGen (fun p c => (p = a ∨ Target.isLambda tree p = false) ∧ c ∈ tree.parts p) a

/-- **A call that touches the object around the code**: it is made on it, or hands it over. What is
seen of the expression at an id stands at the ids that `sees` relates to it. -/
inductive Touches (tree : Tree) (sees : NodeId → NodeId → Prop) (n : NodeId) : Prop where
  | unqualified {call : Call NodeId} (here : tree.expr? n = some (.call call))
      (no_receiver : call.receiver = none)
  | qualified {call : Call NodeId} {receiver q : NodeId} (here : tree.expr? n = some (.call call))
      (on : call.receiver = some receiver) (seen : sees receiver q)
      (object : Target.isReceiverRef tree q = true)
  | handed {e : Expr NodeId} {arg q : NodeId} (here : tree.expr? n = some e)
      (mem : arg ∈ e.arguments) (seen : sees arg q) (object : tree.expr? q = some .thisRef)

/-- **No call in a condition touches the object**, whatever parentheses there are. -/
def LeavesAlone (tree : Tree) (cond : NodeId) : Prop :=
  ∀ n, tree.ReachesOutsideLambdas cond n → ¬ tree.Touches tree.Strips n

/-- **The object is only named without parentheses** by the calls in a condition, where they are
made on it or hand it over. -/
structure NamesBare (tree : Tree) (cond : NodeId) : Prop where
  receivers : ∀ n call receiver q, tree.ReachesOutsideLambdas cond n →
    tree.expr? n = some (.call call) → call.receiver = some receiver → tree.Strips receiver q →
    Target.isReceiverRef tree q = true → receiver = q
  arguments : ∀ n e arg q, tree.ReachesOutsideLambdas cond n → tree.expr? n = some e →
    arg ∈ e.arguments → tree.Strips arg q → tree.expr? q = some .thisRef → arg = q

theorem ReachesOutsideLambdas.reaches (h : tree.ReachesOutsideLambdas a n) : tree.Reaches a n :=
  ReflTransGen.mono (fun _ _ hstep => hstep.2) _ _ h

/-- The way goes on into the arguments of a call. -/
theorem ReachesOutsideLambdas.argument (h : tree.ReachesOutsideLambdas a n)
    (here : tree.expr? n = some e) (hb : b ∈ e.arguments) : tree.ReachesOutsideLambdas a b := by
  refine h.tail ⟨.inr ?_, ?_⟩
  · cases e <;> simp_all [Target.isLambda, Expr.arguments]
  · rw [parts_eq_children (expr?_eq_some.1 here)]
    exact Expr.mem_children_of_mem_arguments hb

theorem Touches.mono {sees sees' : NodeId → NodeId → Prop} (h : tree.Touches sees n)
    (hsees : ∀ x y, (Target.isReceiverRef tree y = true ∨ tree.expr? y = some .thisRef) → sees x y →
      sees' x y) : tree.Touches sees' n := by
  cases h with
  | unqualified here no_receiver => exact .unqualified here no_receiver
  | qualified here on seen object => exact .qualified here on (hsees _ _ (.inl object) seen) object
  | handed here mem seen object => exact .handed here mem (hsees _ _ (.inr object) seen) object

/-- `this` and `super` are there without parentheses. -/
theorem strips_of_isReceiverRef (h : Target.isReceiverRef tree n = true) : tree.Strips n n := by
  unfold Target.isReceiverRef at h
  split at h
  · next here => exact .of_expr (expr?_eq_some.1 here) (by simp)
  · next here => exact .of_expr (expr?_eq_some.1 here) (by simp)
  · cases h

end Tree

namespace Target

/-! ### What is found -/

/-- An expression that is handed over to the call or creation above it. -/
def IsHandedOver (tree : Tree) (id : NodeId) : Prop :=
  ∃ up e, tree.parent? id = some up ∧ tree.expr? up = some e ∧ id ∈ e.arguments

/-- **What counts as looking into the object**: a call without a receiver or on `this` or `super`,
and a `this` that is handed over. -/
def LooksInto (tree : Tree) (id : NodeId) : Prop :=
  (∃ call, tree.expr? id = some (.call call) ∧
    ∀ receiver, call.receiver = some receiver → isReceiverRef tree receiver = true) ∨
  tree.expr? id = some .thisRef ∧ IsHandedOver tree id

open Classical in
theorem readsReceiver_eq (hid : id.index < tree.size) :
    readsReceiver tree id = .ok (decide (LooksInto tree id)) := by
  unfold readsReceiver LooksInto IsHandedOver
  cases hexpr : tree.expr? id with
  | none => simp
  | some e =>
    cases e with
    | call c =>
      cases c with
      | mk receiver method args target => cases receiver <;> simp
    | thisRef =>
      -- a mention of the object is asked where it stands
      rw [Tree.parent_of_lt hid, ok_bind]
      cases hup : tree.parent? id with
      | none => simp
      | some up =>
        cases hup' : tree.expr? up with
        | none => simp [hup']
        | some e => cases e <;> simp [hup', Expr.arguments]
    | _ => simp

open Classical in
/-- **The check of a condition** looks at all that is not in function literals. -/
theorem isObservedBy_eq (hwf : tree.WellFormed) (hcond : tree.Attached cond) :
    implicitReceiver.isObservedBy tree cond =
      .ok (decide (∃ n, tree.ReachesOutsideLambdas cond n ∧ LooksInto tree n)) := by
  obtain ⟨hinside, hall⟩ := hwf.descendantsWhere_eq (fun id => !isLambda tree id) hcond
  have hmem : ∀ n, n ∈ tree.preorderWhere (fun id => !isLambda tree id) cond ↔
      tree.ReachesOutsideLambdas cond n := fun n => by
    simp [Tree.mem_preorderWhere_iff, Tree.ReachesOutsideLambdas]
  -- the check is a test of each node that the walk lists
  dsimp only [isObservedBy]
  rw [hinside, ok_bind, anyM_eq_ok fun n hn => readsReceiver_eq (hwf.lt_size (hall n hn))]
  refine congrArg Except.ok ?_
  rw [Bool.eq_iff_iff]
  simp [hmem]

/-- **A call that touches the object is found** if it names the object without parentheses. -/
theorem exists_looksInto (hwf : tree.WellFormed) (hcond : tree.Attached cond)
    (hn : tree.ReachesOutsideLambdas cond n) (htouches : tree.Touches Eq n) :
    ∃ m, tree.ReachesOutsideLambdas cond m ∧ LooksInto tree m := by
  cases htouches with
  | unqualified here no_receiver => exact ⟨n, hn, .inl ⟨_, here, by simp [no_receiver]⟩⟩
  | qualified here on seen object => exact ⟨n, hn, .inl ⟨_, here, by simpa [on, seen] using object⟩⟩
  | @handed e arg q here mem seen object =>
    subst seen
    -- an argument is recognized by its parent, which is the call
    have hparent : tree.parent? arg = some n := by
      refine hwf.parent?_of_mem (hcond.reaches hn.reaches) ?_
      rw [Tree.parts_eq_children (Tree.expr?_eq_some.1 here)]
      exact Expr.mem_children_of_mem_arguments mem
    exact ⟨arg, hn.argument here mem, .inr ⟨object, n, e, hparent, here, mem⟩⟩

/-- **What is found is a call in the condition**, unless the condition is `this` and is handed over
as a whole. -/
theorem exists_touches (hwf : tree.WellFormed) (hcond : tree.Attached cond)
    (hthis : tree.expr? cond ≠ some .thisRef) (hn : tree.ReachesOutsideLambdas cond n)
    (hlooks : LooksInto tree n) : ∃ m, tree.ReachesOutsideLambdas cond m ∧ tree.Touches Eq m := by
  rcases hlooks with ⟨call, here, hreceiver⟩ | ⟨object, up, e, hparent, here, mem⟩
  · refine ⟨n, hn, ?_⟩
    cases hon : call.receiver with
    | none => exact .unqualified here hon
    | some receiver => exact .qualified here hon rfl (hreceiver receiver hon)
  · -- the call above is reached on the way to its argument
    rcases hn.cases_tail with rfl | ⟨p, hp, -, hmem⟩
    · exact absurd object hthis
    · have hp : tree.ReachesOutsideLambdas cond p := hp
      obtain rfl : p = up := Option.some.inj
        ((hwf.parent?_of_mem (hcond.reaches hp.reaches) hmem).symm.trans hparent)
      exact ⟨p, hp, .handed here mem rfl object⟩

/-! ### What should be found -/

/-- **The object is left alone by a condition that passes the check** exactly if the calls in the
condition name it without parentheses only. A condition that leaves the object alone passes. -/
theorem isObservedBy_implicitReceiver (hwf : tree.WellFormed)
    (hattached : tree.isAttached cond = .ok true) :
    ∃ answer, implicitReceiver.isObservedBy tree cond = .ok answer ∧
      (answer = false → (tree.LeavesAlone cond ↔ tree.NamesBare cond)) ∧
      (tree.expr? cond ≠ some .thisRef → tree.LeavesAlone cond → answer = false) := by
  classical
  have hcond : tree.Attached cond := hwf.attached_of_isAttached hattached
  refine ⟨_, isObservedBy_eq hwf hcond,
    fun hanswer => ⟨fun hleaves => ?_, fun hbare n hn htouches => ?_⟩, fun hthis hleaves => ?_⟩
  · -- a call that names the object would touch it
    exact ⟨fun n call receiver q hn here on hstrips object =>
        absurd (.qualified here on hstrips object) (hleaves n hn),
      fun n e arg q hn here mem hstrips object =>
        absurd (.handed here mem hstrips object) (hleaves n hn)⟩
  · -- a call that touches it names it without parentheses, and such a call is seen
    refine of_decide_eq_false hanswer (exists_looksInto hwf hcond hn ?_)
    cases htouches with
    | unqualified here no_receiver => exact .unqualified here no_receiver
    | qualified here on seen object =>
      exact .qualified here on (hbare.receivers n _ _ _ hn here on seen object) object
    | handed here mem seen object =>
      exact .handed here mem (hbare.arguments n _ _ _ hn here mem seen object) object
  · -- what is seen touches the object, with parentheses taken off or not
    refine decide_eq_false fun ⟨n, hn, hlooks⟩ => ?_
    obtain ⟨m, hm, htouches⟩ := exists_touches hwf hcond hthis hn hlooks
    refine hleaves m hm (htouches.mono fun x y hobject hsees => ?_)
    subst hsees
    rcases hobject with hobject | hobject
    · exact Tree.strips_of_isReceiverRef hobject
    · exact .of_expr (Tree.expr?_eq_some.1 hobject) (by simp)

/-- The loop `for (Item x : source) if ((this).isEmpty()) if (x.isNew()) add(x);`, in a collection.
-/
def bagLoop : Tree where
  nodes := #[
    ⟨.expr (.name "source" (some ⟨0⟩)), some ⟨11⟩, Tree.placeOf 0⟩,
    ⟨.expr .thisRef, some ⟨2⟩, Tree.placeOf 1⟩,
    ⟨.expr (.paren ⟨1⟩), some ⟨3⟩, Tree.placeOf 2⟩,
    ⟨.expr (.call ⟨some ⟨2⟩, "isEmpty", [], some ⟨1⟩⟩), some ⟨10⟩, Tree.placeOf 3⟩,
    ⟨.expr (.name "x" (some ⟨1⟩)), some ⟨5⟩, Tree.placeOf 4⟩,
    ⟨.expr (.call ⟨some ⟨4⟩, "isNew", [], some ⟨2⟩⟩), some ⟨9⟩, Tree.placeOf 5⟩,
    ⟨.expr (.name "x" (some ⟨1⟩)), some ⟨7⟩, Tree.placeOf 6⟩,
    ⟨.expr (.call ⟨none, "add", [⟨6⟩], some ⟨0⟩⟩), some ⟨8⟩, Tree.placeOf 7⟩,
    ⟨.stmt (.expr ⟨7⟩), some ⟨9⟩, Tree.placeOf 8⟩,
    ⟨.stmt (.branch (some ⟨5⟩) (some ⟨8⟩) none), some ⟨10⟩, Tree.placeOf 9⟩,
    ⟨.stmt (.branch (some ⟨3⟩) (some ⟨9⟩) none), some ⟨11⟩, Tree.placeOf 10⟩,
    ⟨.stmt (.forEach ⟨⟨1⟩, some ⟨0⟩, some ⟨10⟩⟩), none, Tree.placeOf 11⟩]
  vars :=
    #[⟨"source", .simple "List", .parameter, false⟩, ⟨"x", .simple "Item", .loopParameter, false⟩]
  root := ⟨11⟩
  scope := .inInstance "Bag"
  revision := 0

theorem wellFormed_bagLoop : bagLoop.WellFormed := .of_isInOrder (by decide)

/-- What `isEmpty` is called on is `this`, in parentheses. -/
theorem strips_bagLoop : bagLoop.Strips ⟨2⟩ ⟨1⟩ := .paren rfl (.of_expr rfl nofun)

/-- Nothing in the inner condition is `this` or `super`. -/
theorem namesBare_bagLoop : bagLoop.NamesBare ⟨5⟩ := by
  -- the condition is a call and the name it is a call on
  have hreached : ∀ n, bagLoop.ReachesOutsideLambdas ⟨5⟩ n → n = ⟨5⟩ ∨ n = ⟨4⟩ := fun n hn => by
    simpa [show bagLoop.preorder ⟨5⟩ = [⟨5⟩, ⟨4⟩] by decide] using Tree.mem_preorder_iff.2
      hn.reaches
  refine ⟨fun n call receiver q hn here on hstrips object => ?_,
    fun n e arg q hn here mem hstrips _ => ?_⟩
  · rcases hreached n hn with rfl | rfl
    · cases here
      cases on
      obtain rfl := hstrips.unique (.of_expr rfl (by simp))
      rfl
    · cases here
  · rcases hreached n hn with rfl | rfl <;> cases here <;> cases mem

/-- The inner condition leaves the collection alone, and the outer one names it in parentheses. -/
theorem leavesAlone_bagLoop : bagLoop.LeavesAlone ⟨5⟩ ∧ ¬ bagLoop.NamesBare ⟨3⟩ := by
  constructor
  · have hattached : bagLoop.isAttached ⟨5⟩ = .ok true := by cbv
    obtain ⟨answer, hanswer, hiff, -⟩ := isObservedBy_implicitReceiver wellFormed_bagLoop hattached
    have hpasses : implicitReceiver.isObservedBy bagLoop ⟨5⟩ = .ok false := by cbv
    exact (hiff (Except.ok.inj (hanswer.symm.trans hpasses))).2 namesBare_bagLoop
  · have hattached : bagLoop.isAttached ⟨3⟩ = .ok true := by cbv
    obtain ⟨answer, hanswer, hiff, -⟩ := isObservedBy_implicitReceiver wellFormed_bagLoop hattached
    have hpasses : implicitReceiver.isObservedBy bagLoop ⟨3⟩ = .ok false := by cbv
    -- the check lets the condition pass, which would be right if the receiver were named bare
    intro hbare
    exact (hiff (Except.ok.inj (hanswer.symm.trans hpasses))).2 hbare ⟨3⟩ .refl
      (.qualified rfl rfl strips_bagLoop rfl)

/-- **A call on the collection is not noticed** if the collection is in parentheses. -/
theorem bagLoop_unnoticed : bagLoop.WellFormed ∧ bagLoop.isAttached ⟨3⟩ = .ok true ∧
    implicitReceiver.isObservedBy bagLoop ⟨3⟩ = .ok false ∧ ¬ bagLoop.LeavesAlone ⟨3⟩ := by
  refine ⟨wellFormed_bagLoop, by cbv, by cbv, fun hleaves => hleaves ⟨3⟩ .refl ?_⟩
  exact .qualified rfl rfl strips_bagLoop rfl

end Target

end LoopToStream
