import LoopToStream.Proofs.Pipeline.Keeping
import LoopToStream.Proofs.Tree.Course

/-!
# Where new code links the code of a loop

A pipeline takes the body of a loop apart. Most of the code comes to stand in function literals of
the parameter, but some is linked as it is: the source, the receiver in front of `::`, what `addAll`
is called on and the creation that a collection is supplied by (`Pipeline.bare`).

What is staged for a plan links nothing else outside of such literals. `Encloses` says this of a
layer, and it comes down to one line for each piece of staging, with `Yields` in place of `Keeps`:
what a piece hands on is a new node or one of the bare parts (`Loose`), and that is all that the
next piece has to know.
-/

namespace LoopToStream

namespace StageFunction

/-- A function literal is one of the parameter. -/
def Binds (param : VarId) : StageFunction → Prop
  | .methodRef .. => True
  | .lambda p _ => p = param

/-- The code that a function refers to outside of a literal. -/
def bare : StageFunction → List NodeId
  | methodRef qualifier _ => qualifier.kept
  | lambda .. => []

end StageFunction

/-- The code that the end of a pipeline refers to outside of a literal of the parameter. -/
def Terminal.bare : Terminal → List NodeId
  | .forEach function => function.bare
  | .collect collector => collector.kept
  | .addAll receiver => receiver.toList

namespace Pipeline

variable {options : Options} {tree : Tree} {place : Span} {plan : Pipeline} {param : VarId}
  {known : Nat} {parts : List NodeId} {kind : Kind NodeId} {edit : Edit} {n : NodeId}
  {analyzer : Analyzer} {candidate : Candidate} {ending : Ending} {f : StageFunction}

/-- The functions of a plan are of its parameter. -/
structure Binds (plan : Pipeline) : Prop where
  filters : ∀ f ∈ plan.filters, f.Binds plan.param
  mapper : ∀ f ∈ plan.mapper, f.Binds plan.param
  terminal : ∀ f, plan.terminal = .forEach f → f.Binds plan.param

/-- The functions that are planned for a loop are of its parameter. -/
theorem Follows.binds (h : Follows tree candidate ending plan)
    (hends : Ends analyzer tree candidate ending) : plan.Binds where
  filters f hf := by
    -- a filter is the literal of a condition
    rw [h.filters_eq] at hf
    obtain ⟨cond, -, rfl⟩ := List.mem_map.1 hf
    exact h.param_eq.symm
  mapper f hf := by
    -- a mapping is a literal, or a reference that binds nothing
    rw [h.mapper_eq] at hf
    rw [h.param_eq]
    cases hends with
    | performed action function_runs => cases hf
    | gathered action found mapper_maps gathers =>
      cases mapper_maps with
      | element is_param => cases hf
      | literal not_param => cases hf; rfl
      | reference not_param answer form => cases hf; trivial
  terminal f hf := by
    -- and so is the function at the end, where there is one
    rw [h.terminal_eq] at hf
    rw [h.param_eq]
    cases hends with
    | performed action function_runs =>
      cases hf
      cases function_runs with
      | reference here answer form => trivial
      | _ => rfl
    | gathered action found mapper_maps gathers => cases gathers <;> cases hf

/-- The code that a plan refers to outside of a literal of its parameter. -/
def bare (plan : Pipeline) : List NodeId :=
  plan.source :: (plan.filters ++ plan.mapper.toList).flatMap StageFunction.bare ++
    plan.terminal.bare

/-- The code of a loop that its pipeline links outside of a literal of the parameter. -/
def bareParts (candidate : Candidate) (ending : Ending) : List NodeId :=
  candidate.source :: ending.mapper.toList.flatMap StageFunction.bare ++ ending.terminal.bare

/-- A condition is always the body of a literal. -/
theorem Follows.bare_eq (h : Follows tree candidate ending plan) :
    plan.bare = bareParts candidate ending := by
  have hfilters : plan.filters.flatMap StageFunction.bare = [] := by
    rw [h.filters_eq, List.flatMap_map]
    exact List.flatMap_eq_nil_iff.2 fun cond _ => rfl
  rw [bare, bareParts, List.flatMap_append, hfilters, h.source_eq, h.mapper_eq, h.terminal_eq,
    List.nil_append]

/-! ### Layers of new code -/

/-- What may be linked outside of a literal of the parameter: nodes that are not known yet, and the
bare parts. -/
def Loose (known : Nat) (parts : List NodeId) (c : NodeId) : Prop := c ∈ parts ∨ known ≤ c.index

/-- **A layer of new code**, which links loose ends only unless it is a literal of the parameter. -/
inductive Encloses (known : Nat) (param : VarId) (parts : List NodeId) : Kind NodeId → Prop where
  | literal {explicitTypes : Bool} {body : NodeId} :
      Encloses known param parts (.expr (.lambda [param] explicitTypes body))
  | supplier {explicitTypes : Bool} {body : NodeId} (mem : body ∈ parts) :
      Encloses known param parts (.expr (.lambda [] explicitTypes body))
  /-- A block for a statement behind an arrow. It may link anything, as a literal of the parameter
  is all that links such a block. -/
  | wrapper {stmt : NodeId} : Encloses known param parts (.stmt (.block [stmt]))
  /-- A block for a new statement and comments. -/
  | behind {comments : List NodeId} {stmt : NodeId} (new : known ≤ stmt.index) :
      Encloses known param parts (.stmt (.block (comments ++ [stmt])))
  /-- Any other layer has expressions for its parts. -/
  | layer {kind : Kind NodeId} (silent : kind.expr?.bind Expr.var? = none)
      (undeclared : ∀ v, Tree.declares v kind = false)
      (slots : ∀ part ∈ kind.slots, part.1 = .expression)
      (links : ∀ c ∈ kind.children, Loose known parts c) : Encloses known param parts kind

/-- An expression that is no literal. -/
theorem Encloses.expr {e : Expr NodeId} (silent : e.var? = none)
    (slots : e.slots = e.children.map (.expression, ·))
    (links : ∀ c ∈ e.children, Loose known parts c) : Encloses known param parts (.expr e) := by
  refine .layer silent (fun v => ?_) (fun part hpart => ?_) links
  · -- a literal has a body
    cases e with
    | lambda params explicitTypes body => cases slots
    | _ => rfl
  · rw [Kind.slots, slots] at hpart
    obtain ⟨c, -, rfl⟩ := List.mem_map.1 hpart
    rfl

/-- The statement behind comments is new. -/
theorem Encloses.of_block {comments : List NodeId} {stmt : NodeId}
    (h : Encloses known param parts (.stmt (.block (comments ++ [stmt])))) (hne : comments ≠ []) :
    known ≤ stmt.index := by
  generalize hkind : Kind.stmt (.block (comments ++ [stmt])) = kind at h
  -- a block is staged around one statement, or around comments and a new one
  cases h with
  | literal => cases hkind
  | supplier mem => cases hkind
  | wrapper =>
    have hlist : comments ++ [stmt] = [] ++ [_] := Stmt.block.inj (Kind.stmt.inj hkind)
    exact absurd (List.append_inj_left' hlist rfl) hne
  | behind new =>
    have hlist := Stmt.block.inj (Kind.stmt.inj hkind)
    obtain rfl := List.singleton_inj.1 (List.append_inj_right' hlist rfl)
    exact new
  | layer silent undeclared slots links =>
    -- a block has room for statements
    subst hkind
    have hslot := slots (.blockItem, stmt) (by simp [Kind.slots, Stmt.slots])
    cases hslot

/-- **New code declares the parameter at most.** -/
theorem Encloses.eq_of_declares {v : VarId} (h : Encloses known param parts kind)
    (hv : Tree.declares v kind = true) : v = param := by
  cases h with
  | literal => simpa [Tree.declares] using hv
  | supplier mem => simp [Tree.declares] at hv
  | wrapper => cases hv
  | behind new => cases hv
  | layer silent undeclared slots links =>
    rw [undeclared v] at hv
    cases hv

/-- **All that has been staged** is new, and made of such layers. -/
structure Enclosed (known : Nat) (param : VarId) (parts : List NodeId) (edit : Edit) : Prop where
  known_le : known ≤ edit.baseSize
  encloses : ∀ node ∈ edit.staged.toList, Encloses known param parts node.kind

namespace Enclosed

theorem start (hknown : known ≤ tree.size) : Enclosed known param parts (Edit.start tree) :=
  ⟨hknown, fun node hnode => by simp [Edit.start] at hnode⟩

theorem of_kind? (h : Enclosed known param parts edit) (hn : tree.size ≤ n.index)
    (hkind : (edit.atop tree).kind? n = some kind) : Encloses known param parts kind := by
  obtain ⟨node, hnode, rfl⟩ := Edit.mem_staged_of_kind? hn hkind
  exact h.encloses node hnode

/-! ### The pieces of a pipeline -/

/-- What has been staged last is new. -/
abbrev New (known : Nat) (id : NodeId) : Prop := known ≤ id.index

theorem stage (hkind : Encloses known param parts kind) :
    Yields (Enclosed known param parts) (New known) (stage place kind) := by
  intro before id after h hbefore
  cases h
  refine ⟨⟨hbefore.known_le, fun node hnode => ?_⟩, hbefore.known_le.trans (Nat.le_add_right _ _)⟩
  replace hnode : node ∈ (before.staged.push ⟨kind, none, place⟩).toList := hnode
  rw [Array.toList_push, List.mem_append, List.mem_singleton] at hnode
  rcases hnode with hnode | rfl
  · exact hbefore.encloses node hnode
  · exact hkind

theorem stageOp (op : EditOp) : Keeps (Enclosed known param parts) (stageOp op) :=
  Keeps.stageOp (fun _ _ h => ⟨h.known_le, h.encloses⟩) op

/-- A call on loose ends. -/
theorem stageCall {receiver : Option NodeId} {method : String} {args : List NodeId}
    (h : ∀ c ∈ receiver.toList ++ args, Loose known parts c) :
    Yields (Enclosed known param parts) (New known) (stageCall place receiver method args) :=
  stage (.expr rfl rfl h)

theorem stageStatement {call : NodeId} (h : Loose known parts call) :
    Yields (Enclosed known param parts) (New known) (stageStmt place (.expr call)) :=
  stage (.layer rfl (fun _ => rfl) (by simp [Kind.slots, Stmt.slots])
    (by simpa [Kind.children, Stmt.children] using h))

theorem stageCollector {factory : String} {args : List NodeId}
    (h : ∀ c ∈ args, Loose known parts c) :
    Yields (Enclosed known param parts) (New known)
        (stageCollector options place factory args) := by
  rw [stageCollector_eq]
  -- the receiver, if there is one, is new
  refine Yields.bind (Q :=
    fun receiver : Option NodeId => ∀ c ∈ receiver.toList, Loose known parts c) ?_
    fun receiver hreceiver => stageCall fun c hc => (List.mem_append.1 hc).elim (hreceiver c) (h c)
  cases options.collectorStyle with
  | qualified =>
    exact (stage (.expr rfl rfl (by simp [Expr.children]))).map fun id hid => by
      simpa using .inr hid
  | staticImport => exact Yields.pure (by simp)

theorem stageSource {source : NodeId} (h : source ∈ parts) :
    Yields (Enclosed known param parts) (Loose known parts) (stageSource tree place source) := by
  unfold Pipeline.stageSource
  split
  · exact Yields.pure (.inl h)
  · exact (stage (.expr rfl rfl (by simpa [Expr.children] using .inl h))).mono fun _ => .inr

/-- A literal is one of the parameter, and a reference links bare parts. -/
theorem stageFunction (hf : f.Binds param) (hbare : ∀ c ∈ f.bare, c ∈ parts) :
    Yields (Enclosed known param parts) (New known) (stageFunction place f) := by
  cases f with
  | methodRef q method =>
    -- a qualifier is code that is there, or a new node that links nothing
    have hq : Yields (Enclosed known param parts) (Loose known parts) (stageQualifier place q) := by
      cases q with
      | expr id =>
        exact Yields.pure (.inl (hbare id (by simp [StageFunction.bare, Qualifier.kept])))
      | _ => exact (stage (.expr rfl rfl (by simp [Expr.children]))).mono fun _ => .inr
    exact hq.bind fun id hid => stage (.expr rfl rfl (by simpa [Expr.children] using hid))
  | lambda p body =>
    obtain rfl : p = param := hf
    have hbody : Yields (Enclosed known p parts) (fun _ => True) (stageBody place body) := by
      cases body with
      | wrapped id => exact (stage .wrapper).mono fun _ _ => trivial
      | _ => exact Yields.pure trivial
    exact hbody.bind fun _ _ => stage .literal

theorem stageStep {method : String} {chain : NodeId} (hchain : Loose known parts chain)
    (hf : f.Binds param) (hbare : ∀ c ∈ f.bare, c ∈ parts) :
    Yields (Enclosed known param parts) (New known) (stageStep place method chain f) :=
  (stageFunction hf hbare).bind fun function hfunction => stageCall fun c hc => by
    rcases List.mem_cons.1 hc with rfl | hc
    · exact hchain
    · exact List.mem_singleton.1 hc ▸ .inr hfunction

/-- **The chain**, from the source to the mapping. -/
theorem stageChain (hbinds : plan.Binds) :
    Yields (Enclosed known plan.param plan.bare) (Loose known plan.bare)
      (stageChain tree place plan) := by
  -- what a function links bare is among what the plan does
  have hbare : ∀ f ∈ plan.filters ++ plan.mapper.toList, ∀ c ∈ f.bare, c ∈ plan.bare := by
    intro f hf c hc
    rw [Pipeline.bare]
    exact List.mem_append_left _ (List.mem_cons_of_mem _ (List.mem_flatMap.2 ⟨f, hf, hc⟩))
  rw [stageChain_eq]
  refine (stageSource (by simp [Pipeline.bare])).bind fun source hsource => ?_
  -- the call of `stream` is new, and without it the source is passed on
  have hstream : Yields (Enclosed known plan.param plan.bare) (Loose known plan.bare)
      (if plan.needsStream then Pipeline.stageCall place (some source) "stream" []
        else Pure.pure source) := by
    split
    · exact (stageCall (by simpa using hsource)).mono fun _ => .inr
    · exact Yields.pure hsource
  -- from there on each filter links the chain that it gets, and the mapping does too
  refine hstream.bind fun stream hstream =>
    Yields.bind (Yields.foldlM (fun f hf chain hchain => ?_) hstream) fun filtered hfiltered => ?_
  · exact (stageStep hchain (hbinds.filters f hf) (hbare f (by simp [hf]))).mono fun _ => .inr
  · cases hmapper : plan.mapper with
    | none => exact Yields.pure hfiltered
    | some mapper =>
      refine (stageStep hfiltered (hbinds.mapper mapper hmapper) (hbare mapper ?_)).mono fun _ =>
        .inr
      simp [hmapper]

theorem stageCollected {chain : NodeId} {factory : String} {args : List NodeId}
    (hchain : Loose known parts chain) (hargs : ∀ c ∈ args, Loose known parts c) :
    Yields (Enclosed known param parts) (New known)
        (stageCollected options place chain factory args) :=
  (stageCollector hargs).bind fun collector hcollector => stageCall fun c hc => by
    rcases List.mem_cons.1 hc with rfl | hc
    · exact hchain
    · exact List.mem_singleton.1 hc ▸ .inr hcollector

theorem stageCollection {chain : NodeId} {collector : Collector} (hchain : Loose known parts chain)
    (hbare : ∀ c ∈ collector.kept, c ∈ parts) :
    Yields (Enclosed known param parts) (New known)
        (stageCollection options place chain collector) := by
  cases collector with
  | custom supplier =>
    have hsupplier : supplier ∈ parts := hbare supplier (by simp [Collector.kept])
    exact (stage (.supplier hsupplier)).bind fun lambda hlambda =>
      stageCollected hchain (by simpa using .inr hlambda)
  | _ => exact stageCollected hchain (by simp)

/-- What takes the place of a loop is a new statement, or a block for it. -/
theorem stageReplacement {stmt : NodeId} (hstmt : New known stmt) :
    Keeps (Enclosed known param parts) (stageReplacement tree place plan stmt) := by
  refine Keeps.bind (Keeps.lift _) fun inBlock => ?_
  split
  · exact Keeps.bind (Keeps.forM fun _ => stageOp _) fun _ => Keeps.bind (stageOp _) fun _ =>
      Keeps.pure _
  · exact Keeps.bind (stage (.behind hstmt)).keeps fun _ => Keeps.bind (stageOp _) fun _ =>
      Keeps.pure _

/-- **All that a plan asks for.** -/
theorem stagePlan (hbinds : plan.Binds) :
    Keeps (Enclosed known plan.param plan.bare) (stagePlan options tree place plan) := by
  have hbare : ∀ c ∈ plan.terminal.bare, c ∈ plan.bare := fun c hc => by
    rw [Pipeline.bare]
    exact List.mem_append_right _ hc
  -- a call becomes a statement, and the statement takes the place of the loop
  have hend : ∀ {call : NodeId} (f : NodeId → Staged), New known call →
      Keeps (Enclosed known plan.param plan.bare) (do
        let stmt ← stageStmt place (.expr call)
        return f (← Pipeline.stageReplacement tree place plan stmt)) := fun f hcall =>
    (stageStatement (.inr hcall)).bindKeeps fun stmt hstmt =>
      Keeps.bind (stageReplacement hstmt) fun _ => Keeps.pure _
  refine (stageChain hbinds).bindKeeps fun chain hchain => ?_
  cases hterminal : plan.terminal with
  | forEach f =>
    cases plan.fold with
    | none =>
      have hf : ∀ c ∈ f.bare, c ∈ plan.bare := fun c hc => hbare c (hterminal ▸ hc)
      exact (stageStep hchain (hbinds.terminal f hterminal) hf).bindKeeps fun call hcall =>
        hend (fun new => ⟨new, false, some call⟩) hcall
    | some fold => exact Keeps.violate _
  | addAll receiver =>
    cases plan.fold with
    | none =>
      refine (stageCollected hchain (by simp)).bindKeeps fun collected hcollected => ?_
      refine (stageCall fun c hc => ?_).bindKeeps fun call hcall =>
        hend (fun new => ⟨new, false, none⟩) hcall
      rcases List.mem_append.1 hc with hc | hc
      · exact .inl (hbare c (hterminal ▸ hc))
      · exact .inr (List.mem_singleton.1 hc ▸ hcollected)
    | some fold => exact Keeps.violate _
  | collect collector =>
    cases plan.fold with
    | none => exact Keeps.violate _
    | some fold =>
      have hkept : ∀ c ∈ collector.kept, c ∈ plan.bare := fun c hc => hbare c (hterminal ▸ hc)
      exact Keeps.bind (stageCollection hchain hkept).keeps fun _ =>
        Keeps.bind (Keeps.forM fun _ => stageOp _) fun _ =>
          Keeps.bind (stageOp _) fun _ => Keeps.bind (stageOp _) fun _ => Keeps.pure _

/-- Writing a parameter with its type makes a literal of the parameter. -/
theorem explicitly {function : NodeId} (h : explicitly tree plan function = .ok edit)
    (hknown : known ≤ tree.size) : Enclosed known plan.param parts edit := by
  obtain ⟨place, -, h⟩ := bind_eq_ok.1 h
  obtain ⟨⟨⟨⟩, after⟩, hafter, h⟩ := bind_eq_ok.1 h
  cases h
  -- whatever the body is, the literal around it is one of the parameter
  have hlambda : ∀ body, Keeps (Enclosed known plan.param parts) (do
      let lambda ← stageExpr place (.lambda [plan.param] true body)
      Pipeline.stageOp (.replace function lambda)) := fun body =>
    Keeps.bind (stage .literal).keeps fun _ => stageOp _
  dsimp only at hafter
  -- an action that is a block is the body as it stands
  split at hafter
  · exact Keeps.bind (Keeps.pure _) hlambda _ _ _ hafter (.start hknown)
  · exact Keeps.bind (stage .wrapper).keeps hlambda _ _ _ hafter (.start hknown)

end Enclosed

end Pipeline

end LoopToStream
