import LoopToStream.Proofs.Flow.Captures
import LoopToStream.Proofs.Loop.Scoping
import LoopToStream.Proofs.Pipeline.Meaning

/-!
# The collection that a loop adds to

A loop that adds to a collection is replaced by one call that adds to it all at once, which is only
right if each time round adds to the same collection. `Candidate.target_of_accumulate` says what a
candidate has been checked for in this respect, in terms of the code:

* `Tree.IsPath` — the collection is named by variables, fields, `this`, `super` and class names;
* `Tree.Outlasts` — each of these variables is there before the loop is run and after it;
* none of them is assigned in the body, so that the name keeps its meaning;
* what is named, or the object that the code belongs to, is declared to be a collection.

The first two come from one check of the expression (`Accumulation.Steady`). That check does not
look for assignments. The third one holds since the body has been let through as a function literal,
which may refer to variables from outside only if they keep their values.
-/

namespace LoopToStream

variable {tree : Tree} {loop body q : NodeId} {v : VarId}

/-- Parameters of the method and fields are given from outside of the code. -/
def VariableKind.isGiven : VariableKind → Bool
  | parameter | field _ => true
  | _ => false

/-- What a path to an object is made of. -/
def Expr.isStep {ι : Type} : Expr ι → Bool
  | name .. | typeName _ | thisRef | superRef | field .. | paren _ => true
  | _ => false

namespace Tree

/-! ### Naming an object from outside -/

/-- Names, fields, `this`, `super`, class names and parentheses, and nothing else. -/
def IsPath (tree : Tree) (q : NodeId) : Prop :=
  ∀ n, tree.Reaches q n → ∃ e, tree.expr? n = some e ∧ e.isStep = true

/-- No node of the tree introduces a variable that is given. -/
def IntroducesLocals (tree : Tree) : Prop :=
  ∀ n v declared, tree.Attached n → (tree.kind? n).any (declares v) = true →
    tree.var v = .ok declared → declared.kind.isGiven = false

/-- It is enough to look at the nodes that hang in the tree and at the table of variables. -/
instance : Decidable tree.IntroducesLocals :=
  decidable_of_iff (∀ n ∈ tree.preorder tree.root, ∀ i, (hi : i < tree.vars.size) →
      (tree.kind? n).any (declares ⟨i⟩) = true → tree.vars[i].kind.isGiven = false) <| by
    constructor
    · intro hall n v declared hn hdeclares hvar
      unfold var at hvar
      split at hvar
      · next x hx =>
        obtain ⟨hlt, rfl⟩ := Array.getElem?_eq_some_iff.1 hx
        cases hvar
        exact hall n (mem_preorder_iff.2 hn) v.index hlt hdeclares
      · cases hvar
    · intro h n hn i hi hdeclares
      exact h n ⟨i⟩ _ (mem_preorder_iff.1 hn) hdeclares (var_of_lt hi)

/-- **A variable outlasts a loop**: it is given, or introduced by a node of the tree that is neither
the loop nor inside of it. -/
def Outlasts (tree : Tree) (loop : NodeId) (v : VarId) : Prop :=
  ∃ declared, tree.var v = .ok declared ∧ (declared.kind.isGiven = true ∨
    ∃ d, tree.Attached d ∧ (tree.kind? d).any (declares v) = true ∧ ¬ tree.Reaches loop d)

/-- **A name for the same object each time** that a loop with this body goes round. -/
structure NamesOne (tree : Tree) (loop body q : NodeId) : Prop where
  path : tree.IsPath q
  outlasts : ∀ v, tree.Mentions v q → tree.Outlasts loop v
  unassigned : ∀ v declared, tree.Mentions v q → tree.var v = .ok declared →
    declared.isFinal = false → ∀ site, tree.Reaches body site → ¬ tree.Assigns v site

/-- A declaration that is found hangs in the tree. -/
theorem WellFormed.attached_of_declarationOf? (hwf : tree.WellFormed) {d : NodeId}
    (h : tree.declarationOf? v = .ok (some d)) : tree.Attached d := by
  rw [hwf.declarationOf?_eq, Except.ok.injEq] at h
  exact mem_preorder_iff.1 (List.mem_of_find?_eq_some h)

end Tree

namespace Accumulation

/-! ### What the check of the expression gives -/

/-- A path step by step. By induction on the expression. -/
theorem Steady.isPath {enclosing : Option NodeId}
    (h : Steady tree enclosing q) : tree.IsPath q := by
  -- a step is what stands there, and what is below it is below its one part, if there is one
  have hstep : ∀ {id : NodeId} {e : Expr NodeId}, tree.kind? id = some (.expr e) → e.isStep = true →
      (∀ c ∈ e.children, tree.IsPath c) → tree.IsPath id := by
    intro id e here hstep hbelow n hn
    rcases Tree.reaches_iff.1 hn with rfl | ⟨c, hc, hcn⟩
    · exact ⟨e, Tree.expr?_eq_some.2 here, hstep⟩
    · rw [Tree.parts_eq_children here] at hc
      exact hbelow c hc n hcn
  induction h with
  | thisRef here => exact hstep here rfl (by simp [Expr.children])
  | superRef here => exact hstep here rfl (by simp [Expr.children])
  | typeName here => exact hstep here rfl (by simp [Expr.children])
  | name here _ => exact hstep here rfl (by simp [Expr.children])
  | field here _ _ ih => exact hstep here rfl (by simpa [Expr.children] using ih)
  | paren here _ ih => exact hstep here rfl (by simpa [Expr.children] using ih)

/-- **What being declared outside of a loop comes to.** All variables that are not given are looked
for in the tree, and the first node that introduces them is neither the loop nor inside of it. -/
theorem given_or_declared (hwf : tree.WellFormed) (hloop : tree.Attached loop)
    (h : declaredOutside tree (some loop) v = .ok .safe) :
    ∃ declared, tree.var v = .ok declared ∧ (declared.kind.isGiven = true ∨
      ∃ d, tree.declarationOf? v = .ok (some d) ∧ ¬ tree.Reaches loop d) := by
  obtain ⟨declared, hdeclared, h⟩ := bind_eq_ok.1 h
  refine ⟨declared, hdeclared, ?_⟩
  cases hkind : declared.kind with
  | parameter => exact .inl rfl
  | field isStatic => exact .inl rfl
  -- any other variable is looked for in the tree
  | localVariable | loopParameter | lambdaParameter | catchParameter =>
    right
    simp only [hkind] at h
    obtain ⟨declaration, hdeclaration, h⟩ := bind_eq_ok.1 h
    cases declaration with
    | none => cases h
    | some d =>
      obtain ⟨inside, hinside, h⟩ := bind_eq_ok.1 h
      refine ⟨d, hdeclaration, fun hreaches => ?_⟩
      -- were it inside of the loop, the answer would have been another one
      have hlt := hwf.lt_size (hwf.attached_of_declarationOf? hdeclaration)
      rw [hwf.isAncestor_eq_of_attached hloop hlt] at hinside
      obtain rfl : inside = true := by simpa [hreaches] using hinside.symm
      cases h

/-- Such a variable outlasts the loop. -/
theorem outlasts_of_declaredOutside (hwf : tree.WellFormed) (hloop : tree.Attached loop)
    (h : declaredOutside tree (some loop) v = .ok .safe) : tree.Outlasts loop v := by
  obtain ⟨declared, hdeclared, hgiven | ⟨d, hd, houtside⟩⟩ := given_or_declared hwf hloop h
  · exact ⟨declared, hdeclared, .inl hgiven⟩
  · exact ⟨declared, hdeclared, .inr ⟨d, hwf.attached_of_declarationOf? hd,
      hwf.declares_of_declarationOf? hd, houtside⟩⟩

/-- Such a variable is not declared in the body, as long as given variables are not introduced at
all. -/
theorem isDeclaredIn_eq_false (hwf : tree.WellFormed) (hlocals : tree.IntroducesLocals)
    (hloop : tree.Attached loop) (hbody : body ∈ tree.parts loop)
    (h : declaredOutside tree (some loop) v = .ok .safe) :
    BodySummary.isDeclaredIn tree body v = .ok false := by
  refine hwf.isDeclaredIn_eq_false (hloop.of_mem hbody) fun d hd hreaches => ?_
  obtain ⟨declared, hdeclared, hgiven | ⟨d', hd', houtside⟩⟩ := given_or_declared hwf hloop h
  -- the node that introduces it would be in the body: not so for what is given, nor for a node
  -- outside
  · have hno := hlocals d v declared (hwf.attached_of_declarationOf? hd)
      (hwf.declares_of_declarationOf? hd) hdeclared
    simp [hno] at hgiven
  · obtain rfl : d' = d := by simpa [hd] using hd'.symm
    exact houtside (hreaches.head hbody)

end Accumulation

/-! ### What it gives together with the check of the body -/

namespace Candidate

variable {analyzer : Analyzer} {candidate : Candidate} {accumulation : Accumulation}

/-- **Variables that keep their values.** What the body mentions and does not declare is not
assigned there, unless it is declared final. -/
theorem Found.unassigned (h : Found analyzer tree loop candidate) (hwf : tree.WellFormed)
    (hbody : tree.Attached candidate.body) {declared : Variable}
    (hmentions : tree.Mentions v candidate.body) (hdeclared : tree.var v = .ok declared)
    (hfinal : declared.isFinal = false)
    (hout : BodySummary.isDeclaredIn tree candidate.body v = .ok false) :
    ∀ site, tree.Reaches candidate.body site → ¬ tree.Assigns v site := by
  intro site hsite hassigns
  obtain ⟨declaration, hdeclaration, -⟩ := hwf.exists_declarationOf? v
  -- there is no assignment at all, or a single one, which is not in the body
  rcases hwf.assigns_of_isEffectivelyFinal hbody hdeclared hfinal hdeclaration
    (h.final_of_mentions hmentions hout) with hnone | ⟨-, -, only, -, -, houtside, hone⟩
  · exact hnone site (hbody.reaches hsite) hassigns
  · exact houtside (hone site (hbody.reaches hsite) hassigns ▸ hsite)

/-- **The collection that a candidate adds to.** An expression that it is named by means the same
object each time round, and the class that it is declared to be of is a collection. Without one, the
collection is the object that the code belongs to, which is there and is one. -/
theorem target_of_accumulate (hwf : tree.WellFormed) (hlocals : tree.IntroducesLocals)
    (hattached : tree.isAttached loop = .ok true)
    (hcandidate : Candidate.of analyzer tree loop = .ok candidate)
    (haction : candidate.action = .accumulate accumulation) :
    ∃ param iterated body, tree.forEach? loop = some ⟨param, iterated, some body⟩ ∧
      (∀ q, accumulation.qualifier = some q → tree.NamesOne loop body q ∧
        ∃ v declared, accumulation.target = .variable v ∧ tree.StandsFor v q ∧
          tree.var v = .ok declared ∧
          analyzer.symbols.hierarchy.isSubtype declared.type.name "Collection" = true) ∧
      (accumulation.qualifier = none → accumulation.target = .implicitReceiver ∧
        tree.scope.isStatic = false ∧ ∃ name, tree.scope.enclosingClass = some name ∧
          analyzer.symbols.hierarchy.isSubtype name "Collection" = true) := by
  -- the checks that the loop and its action have passed
  have hfound := found_of_eq_ok hcandidate
  have hloop := hfound.forEach
  have hlt := Tree.lt_size_of_kind? (Tree.forEach?_eq_some.1 hloop)
  have hloopAttached := (hwf.isAttached_eq_true hlt).1 hattached
  have hbody := Tree.attached_body hloopAttached hloop
  have hguarded := hfound.guarded hwf hloopAttached
  have hchecked := LoopAction.accumulation_of_eq_ok (haction ▸ hfound.action_eq)
  obtain ⟨-, className, -, -, htarget, hcollection, -⟩ := Accumulation.of_eq_ok hchecked
  refine ⟨_, _, _, hloop, fun q hq => ?_, fun hq => ?_⟩
  · -- the qualifier has been found to be steady, and to stand for a variable
    have hadds := Accumulation.found_of_eq_ok hchecked
    have hsteady := hadds.steady_in hq hwf hloopAttached hloop rfl hguarded
    obtain ⟨hreaches, hqualifier⟩ := hadds.attached_qualifier hq hbody hguarded
    -- what the qualifier mentions is mentioned by the body, and has been asked about there
    have hkept : ∀ v declared, tree.Mentions v q → tree.var v = .ok declared →
        declared.isFinal = false → ∀ site, tree.Reaches candidate.body site →
          ¬ tree.Assigns v site := by
      intro v declared hv hdeclared hfinal
      refine hfound.unassigned hwf hbody (hv.of_reaches hreaches) hdeclared hfinal ?_
      exact Accumulation.isDeclaredIn_eq_false hwf hlocals hloopAttached (by simp [hfound.parts_eq])
        (hsteady.declaredOutside hv)
    rw [hq] at htarget
    obtain ⟨-, v, declared, hvariable, hvar, hdeclared, rfl⟩ :=
      Accumulation.targetOf_some_eq_ok htarget
    refine ⟨⟨hsteady.isPath, fun v hv => ?_, hkept⟩, v, declared, hvariable, ?_, hdeclared,
      hcollection⟩
    · exact Accumulation.outlasts_of_declaredOutside hwf hloopAttached (hsteady.declaredOutside hv)
    · exact (hwf.grounded hqualifier).variableAt?_eq_some.1 hvar
  · rw [hq] at htarget
    obtain ⟨htarget, hstatic, hclass⟩ := Accumulation.targetOf_none_eq_ok htarget
    exact ⟨htarget, hstatic, className, hclass, hcollection⟩

/-- The loops `for (Store s : stores) for (String x : xs) (s.items).add(x);`, one in the other. -/
def storeLoop : Tree where
  nodes := #[
    ⟨.expr (.name "stores" (some ⟨0⟩)), some ⟨9⟩, Tree.placeOf 0⟩,
    ⟨.expr (.name "xs" (some ⟨1⟩)), some ⟨8⟩, Tree.placeOf 1⟩,
    ⟨.expr (.name "s" (some ⟨2⟩)), some ⟨3⟩, Tree.placeOf 2⟩,
    ⟨.expr (.field ⟨2⟩ "items" (some ⟨4⟩)), some ⟨4⟩, Tree.placeOf 3⟩,
    ⟨.expr (.paren ⟨3⟩), some ⟨6⟩, Tree.placeOf 4⟩,
    ⟨.expr (.name "x" (some ⟨3⟩)), some ⟨6⟩, Tree.placeOf 5⟩,
    ⟨.expr (.call ⟨some ⟨4⟩, "add", [⟨5⟩], some ⟨1⟩⟩), some ⟨7⟩, Tree.placeOf 6⟩,
    ⟨.stmt (.expr ⟨6⟩), some ⟨8⟩, Tree.placeOf 7⟩,
    ⟨.stmt (.forEach ⟨⟨3⟩, some ⟨1⟩, some ⟨7⟩⟩), some ⟨9⟩, Tree.placeOf 8⟩,
    ⟨.stmt (.forEach ⟨⟨2⟩, some ⟨0⟩, some ⟨8⟩⟩), none, Tree.placeOf 9⟩]
  vars := #[⟨"stores", .simple "List", .parameter, false⟩,
    ⟨"xs", .simple "List", .parameter, false⟩, ⟨"s", .simple "Store", .loopParameter, false⟩,
    ⟨"x", .simple "String", .loopParameter, false⟩, ⟨"items", .simple "List", .field false, false⟩]
  root := ⟨9⟩
  scope := .unknown
  revision := 0

/-- The parameter of the outer loop outlasts the inner one, whose collection it names. -/
theorem target_storeLoop :
    storeLoop.NamesOne ⟨8⟩ ⟨7⟩ ⟨4⟩ ∧ storeLoop.Mentions ⟨2⟩ ⟨4⟩ ∧ storeLoop.Outlasts ⟨8⟩ ⟨2⟩ := by
  obtain ⟨candidate, accumulation, hcandidate, haction, hq⟩ : ∃ candidate accumulation,
      Candidate.of Pipeline.knowingAdd storeLoop ⟨8⟩ = .ok candidate ∧
        candidate.action = .accumulate accumulation ∧ accumulation.qualifier = some ⟨4⟩ :=
    ⟨_, _, by cbv, by cbv, by cbv⟩
  have hwf : storeLoop.WellFormed := .of_isInOrder (by decide)
  obtain ⟨param, iterated, body, hloop, hnamed, -⟩ :=
    target_of_accumulate hwf (by decide) (by cbv) hcandidate haction
  cases hloop
  obtain ⟨hnames, -⟩ := hnamed ⟨4⟩ hq
  have hmentions : storeLoop.Mentions ⟨2⟩ ⟨4⟩ := ⟨⟨2⟩, Tree.mem_preorder_iff.1 (by decide), rfl⟩
  exact ⟨hnames, hmentions, hnames.outlasts ⟨2⟩ hmentions⟩

end Candidate

end LoopToStream
