import LoopToStream.Pipeline.Forwarding
import LoopToStream.Proofs.Flow.Finality

/-!
# What is written as a method reference

`Forwarding.Reduced` lists the forms of code that `Forwarding.reduce?` turns into a method
reference, each with what is written in front of `::`. In a well-formed tree the question always
has an answer, and an answer is of one of these forms (`Forwarding.exists_reduce?`).

None of these forms has a comment or a statement in it (`Reduced.unmarked`), and a receiver that is
written in front of `::` is a part of the call (`Reduced.mem_parts`).
-/

namespace LoopToStream

open LoopToStream.Tree (Unmarked)

namespace Forwarding

variable (analyzer : Analyzer) {tree : Tree} {param var : VarId} {id arg receiver : NodeId}
  {qualifier : Qualifier} {method : String}

/-! ### The forms -/

/-- What may be written in front of `::` for a call on a receiver. -/
inductive Bound (tree : Tree) : NodeId → Qualifier → Prop where
  | type {receiver : NodeId} {type : ClassType}
      (here : tree.kind? receiver = some (.expr (.typeName type))) :
      Bound tree receiver (.type type)
  | thisRef {receiver : NodeId} (here : tree.kind? receiver = some (.expr .thisRef)) :
      Bound tree receiver .thisRef
  | superRef {receiver : NodeId} (here : tree.kind? receiver = some (.expr .superRef)) :
      Bound tree receiver .superRef
  | name {receiver : NodeId} {n : String} {var : VarId}
      (here : tree.kind? receiver = some (.expr (.name n (some var)))) :
      Bound tree receiver (.expr receiver)
  | field {receiver owner : NodeId} {n : String} {var : VarId}
      (here : tree.kind? receiver = some (.expr (.field owner n (some var))))
      (owner_here : tree.kind? owner = some (.expr .thisRef)) : Bound tree receiver (.expr receiver)

/-- **The code at an id hands `param` on** to the method that a reference names. -/
inductive Reduced (tree : Tree) (param : VarId) : NodeId → Qualifier → String → Prop where
  /-- `foo(x)`, through `this` or the class of a static method. -/
  | own {id arg : NodeId} {method : String} {target : Option MethodId} {qualifier : Qualifier}
      (here : tree.kind? id = some (.expr (.call ⟨none, method, [arg], target⟩)))
      (hands_on : isParam tree param arg = true)
      (plain : ∀ receiver, qualifier ≠ .expr receiver) : Reduced tree param id qualifier method
  /-- `q.foo(x)`, through the receiver. -/
  | bound {id arg receiver : NodeId} {method : String} {target : Option MethodId}
      {qualifier : Qualifier}
      (here : tree.kind? id = some (.expr (.call ⟨some receiver, method, [arg], target⟩)))
      (hands_on : isParam tree param arg = true) (bound : Bound tree receiver qualifier) :
      Reduced tree param id qualifier method
  /-- `x.foo()`, through the class of the parameter. -/
  | element {id receiver : NodeId} {method : String} {target : Option MethodId} {type : ClassType}
      (here : tree.kind? id = some (.expr (.call ⟨some receiver, method, [], target⟩)))
      (hands_on : isParam tree param receiver = true) : Reduced tree param id (.type type) method
  /-- `new T(x)`. -/
  | creation {id arg : NodeId} {type : ClassType} {target : Option MethodId}
      (here : tree.kind? id = some (.expr (.create ⟨type, [arg], target⟩)))
      (hands_on : isParam tree param arg = true) : Reduced tree param id (.type type.raw) "new"

/-! ### The answer -/

theorem isParam_eq_true (h : isParam tree param id = true) :
    ∃ n, tree.kind? (tree.skipParens id) = some (.expr (.name n (some param))) := by
  unfold isParam at h
  split at h
  · next n v hexpr =>
    simp only [decide_eq_true_eq] at h
    subst h
    exact ⟨n, Tree.expr?_eq_some.1 hexpr⟩
  · simp at h

variable (hwf : tree.WellFormed)
include hwf

theorem exists_keepsValue (hvar : var.index < tree.vars.size) (place : NodeId) :
    ∃ answer, keepsValue analyzer tree param place var = .ok answer := by
  obtain ⟨final, hfinal⟩ :=
    (hwf.isEffectivelyFinal_answered analyzer.flow hvar place).exists_settle
  rw [keepsValue]
  split
  · exact ⟨_, rfl⟩
  · rw [hfinal, ok_bind]
    cases final <;> exact ⟨_, rfl⟩

/-- A receiver that is kept only if its variable keeps its value. -/
theorem exists_boundExpr (hvar : var.index < tree.vars.size) {isStatic : Bool}
    (hbound : Bound tree receiver (.expr receiver)) :
    ∃ answer, (do
        if isStatic then return none
        return if ← keepsValue analyzer tree param receiver var then some (.expr receiver)
          else none : Lookup (Option Qualifier)) = .ok answer ∧
      ∀ q, answer = some q → Bound tree receiver q := by
  cases isStatic with
  | true => exact ⟨none, rfl, nofun⟩
  | false =>
    obtain ⟨keeps, hkeeps⟩ : ∃ answer, keepsValue analyzer tree param receiver var = .ok answer :=
      exists_keepsValue analyzer hwf hvar receiver
    refine ⟨_, by rw [hkeeps]; rfl, fun q hq => ?_⟩
    cases keeps with
    | true =>
      cases hq
      exact hbound
    | false => cases hq

theorem exists_boundQualifier? (isStatic : Bool) (receiver : NodeId) :
    ∃ answer, boundQualifier? analyzer tree param isStatic receiver = .ok answer ∧
      ∀ q, answer = some q → Bound tree receiver q := by
  unfold boundQualifier?
  cases hreceiver : tree.expr? receiver with
  | none => exact ⟨none, rfl, nofun⟩
  | some e =>
    have hkind := Tree.expr?_eq_some.1 hreceiver
    cases e with
    -- static methods are called on types, and others on objects
    | typeName type =>
      cases isStatic with
      | true => exact ⟨_, rfl, fun q hq => by cases hq; exact .type hkind⟩
      | false => exact ⟨none, rfl, nofun⟩
    | thisRef =>
      cases isStatic with
      | true => exact ⟨none, rfl, nofun⟩
      | false => exact ⟨_, rfl, fun q hq => by cases hq; exact .thisRef hkind⟩
    | superRef =>
      cases isStatic with
      | true => exact ⟨none, rfl, nofun⟩
      | false => exact ⟨_, rfl, fun q hq => by cases hq; exact .superRef hkind⟩
    | name n v =>
      cases v with
      | none => exact ⟨none, rfl, nofun⟩
      | some v =>
        -- a variable is taken if it keeps its value, and that question is answered
        exact exists_boundExpr analyzer hwf
          (hwf.vars_known receiver _ hkind v (by simp [Kind.vars, Expr.vars])) (.name hkind)
    | field owner n v =>
      cases v with
      | none => exact ⟨none, rfl, nofun⟩
      | some v =>
        have hvar := hwf.vars_known receiver _ hkind v (by simp [Kind.vars, Expr.vars])
        dsimp only
        -- of the fields, only those of `this`
        cases howner : tree.expr? owner with
        | none => exact ⟨none, by cases isStatic <;> rfl, nofun⟩
        | some e =>
          cases e with
          | thisRef =>
            simp only [Bool.not_true, Bool.or_false]
            exact exists_boundExpr analyzer hwf hvar (.field hkind (Tree.expr?_eq_some.1 howner))
          | _ => exact ⟨none, by cases isStatic <;> rfl, nofun⟩
    | _ => exact ⟨none, rfl, nofun⟩

theorem exists_callQualifier? (hparam : param.index < tree.vars.size) (signature : Signature)
    {call : Call NodeId} (hcall : tree.kind? id = some (.expr (.call call))) :
    ∃ answer, callQualifier? analyzer tree param signature call = .ok answer ∧
      ∀ q, answer = some q → Reduced tree param id q call.method := by
  obtain ⟨receiver, method, args, target⟩ := call
  unfold callQualifier?
  match args, receiver with
  | [arg], none =>
    dsimp only
    cases harg : isParam tree param arg with
    | false => exact ⟨none, rfl, nofun⟩
    | true =>
      -- without a receiver, the class or `this` is written in front
      split
      · contradiction
      · split
        · exact ⟨_, rfl, fun q hq => by cases hq; exact .own hcall harg nofun⟩
        · split
          · exact ⟨none, rfl, nofun⟩
          · exact ⟨_, rfl, fun q hq => by cases hq; exact .own hcall harg nofun⟩
  | [arg], some receiver =>
    dsimp only
    cases harg : isParam tree param arg with
    | false => exact ⟨none, rfl, nofun⟩
    | true =>
      -- with a receiver, the element is the argument and the receiver is written in front
      obtain ⟨answer, hanswer, hbound⟩ : ∃ answer,
          boundQualifier? analyzer tree param signature.isStatic receiver = .ok answer ∧
            ∀ q, answer = some q → Bound tree receiver q :=
        exists_boundQualifier? analyzer hwf signature.isStatic receiver
      exact ⟨answer, hanswer, fun q hq => .bound hcall harg (hbound q hq)⟩
  | [], some receiver =>
    dsimp only
    cases hreceiver : isParam tree param receiver with
    | false => exact ⟨none, rfl, nofun⟩
    | true =>
      -- the element is the receiver, and its class is written in front
      cases signature.isStatic with
      | true => exact ⟨none, rfl, nofun⟩
      | false =>
        rw [Tree.var_of_lt hparam]
        exact ⟨_, rfl, fun q hq => by cases hq; exact .element hcall hreceiver⟩
  | [], none => exact ⟨none, rfl, nofun⟩
  | _ :: _ :: _, none => exact ⟨none, rfl, nofun⟩
  | _ :: _ :: _, some _ => exact ⟨none, rfl, nofun⟩

/-- **There is an answer**, and a method reference stands for one of the forms. -/
theorem exists_reduce? (hparam : param.index < tree.vars.size) (id : NodeId) :
    ∃ answer, reduce? analyzer tree param id = .ok answer ∧
      ∀ f, answer = some f → ∃ qualifier method, f = .methodRef qualifier method ∧
        Reduced tree param (tree.skipParens id) qualifier method := by
  unfold reduce?
  dsimp only
  cases analyzer.symbols.resolve? tree (tree.skipParens id) with
  | none => exact ⟨none, rfl, nofun⟩
  | some signature =>
    dsimp only
    cases hexpr : tree.expr? (tree.skipParens id) with
    | none => exact ⟨none, rfl, nofun⟩
    | some e =>
      have hkind := Tree.expr?_eq_some.1 hexpr
      cases e with
      | call c =>
        -- the answer for the qualifier is that for the call
        obtain ⟨answer, hanswer, hreduced⟩ := exists_callQualifier? analyzer hwf hparam
          signature hkind
        refine ⟨answer.map fun qualifier => .methodRef qualifier c.method, by simp [hanswer],
          fun f hf => ?_⟩
        obtain ⟨q, hq, rfl⟩ := Option.map_eq_some_iff.1 hf
        exact ⟨q, c.method, rfl, hreduced q hq⟩
      | create c =>
        obtain ⟨type, args, target⟩ := c
        match args with
        | [arg] =>
          cases harg : isParam tree param arg with
          | false => exact ⟨none, by simp [harg], nofun⟩
          | true =>
            refine ⟨some (.methodRef (.type type.raw) "new"), by simp [harg], fun f hf => ?_⟩
            cases hf
            exact ⟨_, _, rfl, .creation hkind harg⟩
        | [] => exact ⟨none, rfl, nofun⟩
        | _ :: _ :: _ => exact ⟨none, rfl, nofun⟩
      | _ => exact ⟨none, rfl, nofun⟩

theorem exists_reduceAction? (hparam : param.index < tree.vars.size) (action : NodeId) :
    ∃ answer, reduceAction? analyzer tree param action = .ok answer ∧
      ∀ f, answer = some f → ∃ value qualifier method,
        tree.kind? action = some (.stmt (.expr value)) ∧ f = .methodRef qualifier method ∧
          reduce? analyzer tree param value = .ok (some f) ∧
          Reduced tree param (tree.skipParens value) qualifier method := by
  unfold reduceAction? actionExpression?
  cases hstmt : tree.stmt? action with
  | none => exact ⟨none, rfl, nofun⟩
  | some s =>
    cases s with
    | expr value =>
      obtain ⟨answer, hanswer, hreduced⟩ := exists_reduce? analyzer hwf hparam value
      refine ⟨answer, hanswer, fun f hf => ?_⟩
      obtain ⟨q, m, hfq, hform⟩ := hreduced f hf
      exact ⟨value, q, m, Tree.stmt?_eq_some.1 hstmt, hfq, by rw [hanswer, hf], hform⟩
    | _ => exact ⟨none, rfl, nofun⟩

/-! ### What the forms consist of -/

omit hwf in
theorem unmarked_of_isParam (hg : tree.Grounded arg) (h : isParam tree param arg = true) :
    tree.Unmarked arg := by
  obtain ⟨n, hn⟩ := isParam_eq_true h
  exact .of_skipParens hg (.expr hn rfl (by simp [Expr.children]))

omit hwf in
theorem Bound.unmarked (h : Bound tree receiver qualifier) : tree.Unmarked receiver := by
  cases h with
  | type here => exact .expr here rfl (by simp [Expr.children])
  | thisRef here => exact .expr here rfl (by simp [Expr.children])
  | superRef here => exact .expr here rfl (by simp [Expr.children])
  | name here => exact .expr here rfl (by simp [Expr.children])
  | field here owner_here =>
    refine .expr here rfl fun c hc => ?_
    rw [Expr.children, List.mem_singleton] at hc
    exact .expr (hc ▸ owner_here) rfl (by simp [Expr.children])

omit hwf in
/-- **No comment is lost** by writing a method reference. -/
theorem Reduced.unmarked (hg : tree.Grounded id) (h : Reduced tree param id qualifier method) :
    tree.Unmarked id := by
  -- the parameter is a name, which has no comments in it
  have hpart : ∀ {e : Expr NodeId} {c}, tree.kind? id = some (.expr e) → c ∈ e.children →
      isParam tree param c = true → tree.Unmarked c := fun hkind hc hparam =>
    unmarked_of_isParam (hg.of_mem_parts (Tree.parts_eq_children hkind ▸ hc)) hparam
  cases h with
  | own here hands_on =>
    exact .expr here
      rfl (by simpa [Expr.children] using hpart here (by simp [Expr.children]) hands_on)
  | bound here hands_on bound =>
    have harg := hpart here (by simp [Expr.children]) hands_on
    exact .expr here rfl (by simpa [Expr.children] using ⟨bound.unmarked, harg⟩)
  | element here hands_on =>
    exact .expr here
      rfl (by simpa [Expr.children] using hpart here (by simp [Expr.children]) hands_on)
  | creation here hands_on =>
    exact .expr here
      rfl (by simpa [Expr.children] using hpart here (by simp [Expr.children]) hands_on)

omit hwf in
/-- The receiver that is kept is a part of the call. -/
theorem Reduced.mem_parts (h : Reduced tree param id (.expr receiver) method) :
    receiver ∈ tree.parts id := by
  cases h with
  | own here hands_on plain => exact absurd rfl (plain receiver)
  | bound here hands_on bound =>
    rw [Tree.parts_eq_children here]
    cases bound <;> simp [Kind.children, Expr.children]

omit hwf in
/-- A receiver that is kept binds as tightly as can be. -/
theorem Reduced.precedence_eq (h : Reduced tree param id (.expr receiver) method) :
    ∃ e, tree.kind? receiver = some (.expr e) ∧ e.precedence = 15 := by
  cases h with
  | own here hands_on plain => exact absurd rfl (plain receiver)
  | bound here hands_on bound =>
    cases bound with
    | name here => exact ⟨_, here, rfl⟩
    | field here owner_here => exact ⟨_, here, rfl⟩

end Forwarding

end LoopToStream
