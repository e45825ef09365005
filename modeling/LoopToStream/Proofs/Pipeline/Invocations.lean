import LoopToStream.Proofs.Flow.Captures
import LoopToStream.Proofs.Pipeline.Forwarding
import LoopToStream.Proofs.Tree.Parentheses

/-!
# What method references stand for

A method reference takes the place of a function literal that hands its parameter on. Both come down
to an `Invocation`: an object is created from the element, or a method is called, on a class, on the
element, or on an object that is the same for all elements.

* `Forwarding.Invokes` reads the invocation off the code of the literal, form by form;
* `Forwarding.Denotes` reads it off the method reference, of which it is known whether the method is
  static. What stands in front of `::` alone does not tell a static method of a class from one that
  is called on the element.

`Forwarding.invokes_of_reduce?` says that a method reference that is found denotes the invocation in
the code, that the code uses the element once and in no other way, and that what is kept of the code
does not mention it. The receiver that is kept is a variable or a field of `this` that keeps its
value (`Tree.KeepsValue`): the reference evaluates it once, and the literal would have done so for
each element.
-/

namespace LoopToStream

variable {tree : Tree} {v param : VarId} {id arg receiver call : NodeId}

/-! ### Variables that keep their values -/

namespace Flow

variable {flow : Flow} {place : NodeId} {answer : Bool}

/-- **An answer about finality** does not depend on the bounds within which it has been found. -/
theorem isEffectivelyFinal_unbounded (h : flow.isEffectivelyFinal tree v place = .ok answer) :
    unbounded.isEffectivelyFinal tree v place = .ok answer := by
  cases hcanceled : flow.canceled with
  | false => exact (hcanceled ▸ narrower_of_no_budget flow).isEffectivelyFinal.eq_ok h
  | true =>
    -- a query that is canceled only says something about variables that are declared final
    rw [isEffectivelyFinal] at h ⊢
    obtain ⟨declared, hdeclared, h⟩ := bind_eq_ok.1 h
    rw [hdeclared, ok_bind]
    split at h
    · next hfinal => rwa [if_pos hfinal]
    · rw [writes_of_canceled hcanceled] at h
      simp at h

end Flow

namespace Tree

/-- **A variable keeps its value**: it is declared final, it is assigned nowhere, or it is a local
variable that is declared without a value and assigned in one place. -/
def KeepsValue (tree : Tree) (v : VarId) : Prop :=
  ∃ declared, tree.var v = .ok declared ∧
    (declared.isFinal = true ∨ (∀ site, tree.Attached site → ¬ tree.Assigns v site) ∨
      declared.kind = .localVariable ∧
        (∃ d, tree.declarationOf? v = .ok (some d) ∧ tree.stmt? d = some (.declare v none)) ∧
        ∃ site, tree.Attached site ∧ tree.Assigns v site ∧
          ∀ other, tree.Attached other → tree.Assigns v other → other = site)

theorem WellFormed.keepsValue (hwf : tree.WellFormed) {flow : Flow} {place : NodeId}
    (h : flow.isEffectivelyFinal tree v place = .ok true) : tree.KeepsValue v := by
  have hunbounded := Flow.isEffectivelyFinal_unbounded h
  obtain ⟨declared, hdeclared, -⟩ := bind_eq_ok.1 h
  rw [Attempt.liftM_eq_ok] at hdeclared
  refine ⟨declared, hdeclared, ?_⟩
  cases hfinal : declared.isFinal with
  | true => exact .inl rfl
  | false =>
    right
    -- the sites of the search are the nodes of the tree that assign the variable
    have hsites : ∀ site, site ∈ tree.writeSites v ↔ tree.Attached site ∧ tree.Assigns v site :=
      fun site => mem_writeSites.trans
        (and_congr_right fun hsite => (hwf.grounded hsite).writesTo_iff)
    rcases hwf.writeSites_of_isEffectivelyFinal hdeclared hfinal hunbounded with
      hnone | ⟨hkind, hinitial, site, hone, -⟩
    · refine .inl fun site hsite hassigns => ?_
      simpa [hnone] using (hsites site).2 ⟨hsite, hassigns⟩
    · obtain ⟨hsite, hassigns⟩ := (hsites site).1 (by simp [hone])
      refine .inr ⟨hkind, hwf.declares_of_hasInitialValue? hinitial, site, hsite, hassigns, ?_⟩
      intro other hother hassigns'
      simpa [hone] using (hsites other).2 ⟨hother, hassigns'⟩

end Tree

namespace Forwarding

/-! ### Invocations -/

/-- What a method is called on. -/
inductive Recipient where
  /-- The class of a static method. -/
  | type (type : ClassType)
  | thisRef
  | superRef
  /-- The object that an expression of the code stands for. -/
  | object (receiver : NodeId)
  /-- The element, as an object of a class. -/
  | element (type : ClassType)

/-- **What is done with an element**. It is the only argument, unless it is what the method is
called on: then there is no argument. -/
inductive Invocation where
  | creation (type : ClassType)
  | call (recipient : Recipient) (method : String)

variable {signature : Signature} {invocation : Invocation} {recipient : Recipient}
  {qualifier : Qualifier} {method : String}

/-- **What a method reference means**, for a method with this signature. Creating an object is
written as a method `new` of its class. -/
inductive Denotes (signature : Signature) : Qualifier → String → Invocation → Prop where
  | creation {type : ClassType} : Denotes signature (.type type) "new" (.creation type)
  | static {type : ClassType} {method : String} (static : signature.isStatic = true) :
      Denotes signature (.type type) method (.call (.type type) method)
  | element {type : ClassType} {method : String} (dynamic : signature.isStatic = false) :
      Denotes signature (.type type) method (.call (.element type) method)
  | thisRef {method : String} (dynamic : signature.isStatic = false) :
      Denotes signature .thisRef method (.call .thisRef method)
  | superRef {method : String} (dynamic : signature.isStatic = false) :
      Denotes signature .superRef method (.call .superRef method)
  | object {receiver : NodeId} {method : String} (dynamic : signature.isStatic = false) :
      Denotes signature (.expr receiver) method (.call (.object receiver) method)

/-- The expression at an id is the name of the parameter, perhaps in parentheses. -/
def IsElement (tree : Tree) (param : VarId) (id : NodeId) : Prop :=
  ∃ n name, tree.Strips id n ∧ tree.kind? n = some (.expr (.name name (some param)))

/-- **What a call with a receiver is made on.** -/
inductive CalledOn (tree : Tree) (param : VarId) (signature : Signature) (receiver : NodeId) :
    Recipient → Prop where
  | type {type : ClassType} (here : tree.kind? receiver = some (.expr (.typeName type)))
      (static : signature.isStatic = true) : CalledOn tree param signature receiver (.type type)
  | thisRef (here : tree.kind? receiver = some (.expr .thisRef))
      (dynamic : signature.isStatic = false) :
      CalledOn tree param signature receiver .thisRef
  | superRef (here : tree.kind? receiver = some (.expr .superRef))
      (dynamic : signature.isStatic = false) :
      CalledOn tree param signature receiver .superRef
  | name {n : String} {v : VarId}
      (here : tree.kind? receiver = some (.expr (.name n (some v))))
      (dynamic : signature.isStatic = false) (other : v ≠ param) (keeps : tree.KeepsValue v) :
      CalledOn tree param signature receiver (.object receiver)
  | field {owner : NodeId} {n : String} {v : VarId}
      (here : tree.kind? receiver = some (.expr (.field owner n (some v))))
      (own : tree.kind? owner = some (.expr .thisRef)) (dynamic : signature.isStatic = false)
      (other : v ≠ param) (keeps : tree.KeepsValue v) :
      CalledOn tree param signature receiver (.object receiver)

/-- **What the code at an id does with the parameter**, for a call of a method with this signature.
-/
inductive Invokes (tree : Tree) (param : VarId) (signature : Signature) (id : NodeId) :
    Invocation → Prop where
  /-- `new T(x)`. -/
  | creation {type : ClassType} {arg : NodeId} {target : Option MethodId}
      (here : tree.kind? id = some (.expr (.create ⟨type, [arg], target⟩)))
      (element : IsElement tree param arg) : Invokes tree param signature id (.creation type.raw)
  /-- `foo(x)`, a method of the class that declares it. -/
  | ownStatic {method : String} {arg : NodeId} {target : Option MethodId}
      (here : tree.kind? id = some (.expr (.call ⟨none, method, [arg], target⟩)))
      (element : IsElement tree param arg) (static : signature.isStatic = true) :
      Invokes tree param signature id (.call (.type (.simple signature.owner)) method)
  /-- `foo(x)`, where there is a `this`. -/
  | own {method : String} {arg : NodeId} {target : Option MethodId}
      (here : tree.kind? id = some (.expr (.call ⟨none, method, [arg], target⟩)))
      (element : IsElement tree param arg) (dynamic : signature.isStatic = false)
      (implicit : tree.scope.isStatic = false) :
      Invokes tree param signature id (.call .thisRef method)
  /-- `q.foo(x)`. -/
  | qualified {receiver arg : NodeId} {method : String} {target : Option MethodId}
      {recipient : Recipient}
      (here : tree.kind? id = some (.expr (.call ⟨some receiver, method, [arg], target⟩)))
      (element : IsElement tree param arg) (on : CalledOn tree param signature receiver recipient) :
      Invokes tree param signature id (.call recipient method)
  /-- `x.foo()`. -/
  | onElement {receiver : NodeId} {method : String} {target : Option MethodId} {declared : Variable}
      (here : tree.kind? id = some (.expr (.call ⟨some receiver, method, [], target⟩)))
      (element : IsElement tree param receiver) (dynamic : signature.isStatic = false)
      (declared_eq : tree.var param = .ok declared) :
      Invokes tree param signature id (.call (.element declared.type.raw) method)

/-! ### What is mentioned -/

theorem IsElement.of_isParam (h : isParam tree param id = true) : IsElement tree param id := by
  obtain ⟨n, hn⟩ := isParam_eq_true h
  exact ⟨_, n, Tree.strips_skipParens_of_expr hn (by simp), hn⟩

/-- The parameter in parentheses is finite code with one reference to the parameter. -/
theorem IsElement.references_eq (h : IsElement tree param id) :
    tree.Grounded id ∧ ∃ n, tree.references param id = [n] := by
  obtain ⟨n, name, hstrips, here⟩ := h
  have hg : tree.Grounded n := .layer here (by simp [Kind.children, Expr.children])
  refine ⟨hstrips.grounded hg, n, ?_⟩
  rw [hstrips.references_eq hg, hg.references_of_expr here]
  simp [Expr.var?, Expr.children]

/-- What a call is made on does not mention the parameter. -/
theorem CalledOn.references_eq_nil (h : CalledOn tree param signature receiver recipient) :
    tree.Grounded receiver ∧ tree.references param receiver = [] := by
  -- nothing is below what a call is made on, unless it is a field of `this`
  have hleaf : ∀ {n : NodeId} {e : Expr NodeId}, tree.kind? n = some (.expr e) → e.children = [] →
      e.var? ≠ some param → tree.Grounded n ∧ tree.references param n = [] := by
    intro n e here hchildren hvar
    have hg : tree.Grounded n := .layer here (by simp [Kind.children, hchildren])
    exact ⟨hg, by rw [hg.references_of_expr here]; simp [hvar, hchildren]⟩
  cases h with
  | type here => exact hleaf here rfl (by simp [Expr.var?])
  | thisRef here => exact hleaf here rfl (by simp [Expr.var?])
  | superRef here => exact hleaf here rfl (by simp [Expr.var?])
  | name here dynamic other => exact hleaf here rfl (by simpa [Expr.var?] using other)
  | field here own dynamic other =>
    obtain ⟨howner, hnone⟩ := hleaf own rfl (by simp [Expr.var?])
    have hg : tree.Grounded receiver :=
      .layer here (by simpa [Kind.children, Expr.children] using howner)
    refine ⟨hg, ?_⟩
    rw [hg.references_of_expr here]
    simp [Expr.var?, Expr.children, other, hnone]

/-- **The parameter is mentioned once** by code that hands it on. -/
theorem Invokes.references_eq (h : Invokes tree param signature call invocation) :
    tree.Grounded call ∧ ∃ n, tree.references param call = [n] := by
  -- the references of a call are those of its parts
  have hlayer : ∀ {e : Expr NodeId}, tree.kind? call = some (.expr e) → e.var? = none →
      (∀ c ∈ e.children, tree.Grounded c) →
      (∃ n, e.children.flatMap (tree.references param) = [n]) →
      tree.Grounded call ∧ ∃ n, tree.references param call = [n] := by
    intro e here hvar hparts hone
    have hg : tree.Grounded call := .layer here hparts
    exact ⟨hg, by rw [hg.references_of_expr here]; simpa [hvar] using hone⟩
  -- mostly, what stands for the element is the only part
  have hsole : ∀ {e : Expr NodeId} {part : NodeId}, tree.kind? call = some (.expr e) →
      e.var? = none →
      e.children = [part] → IsElement tree param part →
      tree.Grounded call ∧ ∃ n, tree.references param call = [n] := by
    intro e part here hvar hchildren helement
    obtain ⟨hg, hone⟩ := helement.references_eq
    exact hlayer here hvar (by simpa [hchildren] using hg) (by simpa [hchildren] using hone)
  cases h with
  | creation here element => exact hsole here rfl rfl element
  | ownStatic here element => exact hsole here rfl rfl element
  | own here element => exact hsole here rfl rfl element
  | onElement here element => exact hsole here rfl rfl element
  | qualified here element on =>
    obtain ⟨hg, hone⟩ := element.references_eq
    obtain ⟨hreceiver, hnone⟩ := on.references_eq_nil
    exact hlayer here rfl (by simpa [Expr.children] using ⟨hreceiver, hg⟩)
      (by simpa [Expr.children, hnone] using hone)

/-- **A receiver that is kept does not mention the parameter.** -/
theorem Invokes.references_receiver (h : Invokes tree param signature call invocation)
    (hdenotes : Denotes signature (.expr receiver) method invocation) :
    tree.referencesIn param receiver = .ok [] := by
  cases hdenotes with
  | object dynamic =>
    cases h with
    | qualified here element on =>
      obtain ⟨hg, hnone⟩ := on.references_eq_nil
      -- an object that a method is called on is what stands in front of the call
      cases on <;> rw [hg.referencesIn_eq, hnone]

/-! ### What is found -/

variable {analyzer : Analyzer} (hwf : tree.WellFormed)
include hwf

theorem keepsValue_eq_true {place : NodeId}
    (h : keepsValue analyzer tree param place v = .ok true) :
    v ≠ param ∧ tree.KeepsValue v := by
  unfold keepsValue at h
  split at h
  · cases h
  · next hne =>
    obtain ⟨answer, hanswer, h⟩ := bind_eq_ok.1 h
    -- where the flow query was given up, the variable is not taken to keep its value
    cases answer with
    | error reason => cases h
    | ok final =>
      obtain rfl := Except.ok.inj h
      exact ⟨hne, hwf.keepsValue (Attempt.settle_eq_ok.1 hanswer)⟩

/-- **What is written in front of `::`** for a call with a receiver. -/
theorem boundQualifier?_eq_some (method : String)
    (h : boundQualifier? analyzer tree param signature.isStatic receiver = .ok (some qualifier)) :
    ∃ recipient, CalledOn tree param signature receiver recipient ∧
      Denotes signature qualifier method (.call recipient method) := by
  -- a variable that is found to keep its value is kept as it stands
  have hkept : ∀ {v : VarId}, signature.isStatic = false →
      (do return if ← keepsValue analyzer tree param receiver v then some (.expr receiver)
        else none :
        Lookup (Option Qualifier)) = .ok (some qualifier) →
      qualifier = .expr receiver ∧ v ≠ param ∧ tree.KeepsValue v := by
    intro v hdynamic h
    obtain ⟨keeps, hkeeps, h⟩ := bind_eq_ok.1 h
    cases keeps with
    | false => cases h
    | true =>
      cases h
      exact ⟨rfl, keepsValue_eq_true hwf hkeeps⟩
  unfold boundQualifier? at h
  cases hexpr : tree.expr? receiver with
  | none => simp [hexpr] at h
  | some e =>
    have here := Tree.expr?_eq_some.1 hexpr
    rw [hexpr] at h
    -- static methods are called on types, and others on objects
    cases hstatic : signature.isStatic with
    | true =>
      cases e with
      | typeName type =>
        rw [hstatic] at h
        cases h
        exact ⟨_, .type here hstatic, .static hstatic⟩
      | name n v => cases v <;> simp [hstatic] at h
      | field owner n v => cases v <;> simp [hstatic] at h
      | _ => simp [hstatic] at h
    | false =>
      cases e with
      | thisRef =>
        rw [hstatic] at h
        cases h
        exact ⟨_, .thisRef here hstatic, .thisRef hstatic⟩
      | superRef =>
        rw [hstatic] at h
        cases h
        exact ⟨_, .superRef here hstatic, .superRef hstatic⟩
      | name n v =>
        cases v with
        | none => simp at h
        | some v =>
          simp only [hstatic, Bool.false_eq_true, if_false] at h
          obtain ⟨rfl, hne, hkeeps⟩ := hkept hstatic h
          exact ⟨_, .name here hstatic hne hkeeps, .object hstatic⟩
      | field owner n v =>
        cases v with
        | none => simp at h
        | some v =>
          simp only [hstatic] at h
          split at h
          · next hthis =>
            obtain ⟨rfl, hne, hkeeps⟩ := hkept hstatic h
            exact ⟨_, .field here (Tree.expr?_eq_some.1 hthis) hstatic hne hkeeps, .object hstatic⟩
          · simp at h
      | _ => simp [hstatic] at h

theorem callQualifier?_eq_some {c : Call NodeId} (here : tree.kind? call = some (.expr (.call c)))
    (h : callQualifier? analyzer tree param signature c = .ok (some qualifier)) :
    ∃ invocation, Invokes tree param signature call invocation ∧
      Denotes signature qualifier c.method invocation := by
  obtain ⟨receiver, method, args, target⟩ := c
  unfold callQualifier? at h
  match args, receiver with
  | [arg], none =>
    dsimp only at h
    cases harg : isParam tree param arg with
    | false => simp [harg] at h
    | true =>
      -- the element is handed to a method of the class itself
      have helement := IsElement.of_isParam harg
      simp only [harg, Bool.not_true, Bool.false_eq_true, if_false] at h
      cases hstatic : signature.isStatic with
      | true =>
        rw [hstatic] at h
        cases h
        exact ⟨_, .ownStatic here helement hstatic, .static hstatic⟩
      | false =>
        cases hscope : tree.scope.isStatic with
        | true => simp [hstatic, hscope] at h
        | false =>
          rw [hstatic, hscope] at h
          cases h
          exact ⟨_, .own here helement hstatic hscope, .thisRef hstatic⟩
  | [arg], some receiver =>
    dsimp only at h
    cases harg : isParam tree param arg with
    | false => simp [harg] at h
    | true =>
      simp only [harg, Bool.not_true, Bool.false_eq_true, if_false] at h
      -- the element is handed to a method of the receiver
      obtain ⟨recipient, hon, hdenotes⟩ := boundQualifier?_eq_some hwf method h
      exact ⟨_, .qualified here (.of_isParam harg) hon, hdenotes⟩
  | [], some receiver =>
    dsimp only at h
    cases hreceiver : isParam tree param receiver with
    | false => simp [hreceiver] at h
    | true =>
      cases hstatic : signature.isStatic with
      | true => simp [hstatic] at h
      | false =>
        simp only [hreceiver, hstatic, Bool.not_true, Bool.or_false, Bool.false_eq_true,
          if_false] at h
        -- the method is one of the element
        obtain ⟨declared, hdeclared, h⟩ := bind_eq_ok.1 h
        cases h
        exact ⟨_, .onElement here (.of_isParam hreceiver) hstatic hdeclared, .element hstatic⟩
  | [], none => cases h
  | _ :: _ :: _, none => cases h
  | _ :: _ :: _, some _ => cases h

/-- The statement `(this.out.add((x)));`. -/
def outCall : Tree where
  nodes := #[
    ⟨.expr .thisRef, some ⟨1⟩, Tree.placeOf 0⟩,
    ⟨.expr (.field ⟨0⟩ "out" (some ⟨0⟩)), some ⟨4⟩, Tree.placeOf 1⟩,
    ⟨.expr (.name "x" (some ⟨1⟩)), some ⟨3⟩, Tree.placeOf 2⟩,
    ⟨.expr (.paren ⟨2⟩), some ⟨4⟩, Tree.placeOf 3⟩,
    ⟨.expr (.call ⟨some ⟨1⟩, "add", [⟨3⟩], some ⟨0⟩⟩), some ⟨5⟩, Tree.placeOf 4⟩,
    ⟨.expr (.paren ⟨4⟩), some ⟨6⟩, Tree.placeOf 5⟩,
    ⟨.stmt (.expr ⟨5⟩), none, Tree.placeOf 6⟩]
  vars :=
    #[⟨"out", .simple "List", .field false, false⟩, ⟨"x", .simple "String", .loopParameter, false⟩]
  root := ⟨6⟩
  scope := .inInstance "Sample"
  revision := 0

/-- Where `out.add(x)` is known. -/
def knowingOut : Analyzer :=
  let add : Signature := ⟨"List", "add", [.simple "Object"], 0, [], some (.simple "boolean"), false⟩
  ⟨⟨.empty, #[add], []⟩, .unbounded⟩

end Forwarding

end LoopToStream
