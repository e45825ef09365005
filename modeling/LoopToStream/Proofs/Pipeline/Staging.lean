import LoopToStream.Proofs.Pipeline.Kept
import LoopToStream.Proofs.Pipeline.Spelling
import LoopToStream.Proofs.Tree.Mentions
import LoopToStream.Proofs.Tree.Printing

/-!
# Staging a pipeline

A pipeline is staged from the source outwards, a node at a time. What is staged on the way from one
edit to a longer one is described by `Stages`: the new nodes are sound, none of those before has
changed, and below the ids that are handed on hang the new nodes and the subtrees that are kept.
`Emits` adds to this, for a single expression, how it prints.

There is one lemma for each staging function, which says that it succeeds and what it emits:

* `Stages.emit` — a single expression over parts that have been staged;
* `Emits.call` and its kin — the layers that pipelines are made of;
* `exists_stageFunction`, `exists_stageChain`, `exists_stageCollection` — the stages, with the texts
  of `Spelling`.
-/

namespace LoopToStream

open LoopToStream.Tree (Built Prints PrintsAll argumentsText)

namespace Tree

variable {tree tree' : Tree} {id : NodeId} {binding : Option Nat} {text : String}
  {args : List NodeId} {texts : List String}

/-- What prints, prints the same where there is more. -/
theorem Prints.grow (h : tree.Prints id binding text) (hg : tree.Grounded id)
    (hgrow : tree.Grows tree') : tree'.Prints id binding text :=
  h.congr hg (hgrow.sameBelow hg) hgrow.vars_eq

theorem PrintsAll.grow (h : tree.PrintsAll args texts) (hg : ∀ arg ∈ args, tree.Grounded arg)
    (hgrow : tree.Grows tree') : tree'.PrintsAll args texts :=
  h.congr (fun arg harg => ⟨hg arg harg, hgrow.sameBelow (hg arg harg)⟩) hgrow.vars_eq

theorem Prints.all_singleton (h : tree.Prints id binding text) : tree.PrintsAll [id] [text] :=
  .cons ⟨binding, h⟩ .nil

end Tree

/-- What binds as tightly as can be needs no parentheses. -/
@[simp] theorem operandText_tight (text : String) : operandText 15 (some 15) text = text := rfl

theorem Spelling.call_eq (receiver method argument : String) :
    call receiver method argument = receiver ++ "." ++ method ++ argumentsText [argument] := by
  simp [call, argumentsText, String.append_assoc]

theorem Spelling.unqualified_eq (method argument : String) :
    method ++ "(" ++ argument ++ ")" = method ++ argumentsText [argument] := by
  simp [argumentsText, String.append_assoc]

@[simp] theorem argumentsText_nil : argumentsText [] = argumentsText [""] := rfl

theorem blockText_singleton (text : String) :
    Tree.blockText [text] = "\x7b " ++ text ++ " \x7d" := by
  have hopen : "\x7b" ++ (" " ++ text) = "\x7b " ++ text := by
    rw [← String.append_assoc]
    rfl
  simp [Tree.blockText, String.join, hopen]

namespace Pipeline

variable {tree : Tree} {before mid after : Edit} {kept kept' ids ids' : List NodeId}
  {id receiver inner : NodeId} {binding : Option Nat} {text part : String}
  (place : Span) (kind : Kind NodeId) (e : Expr NodeId) (method : String)

/-! ### Running staging code -/

/-- Staging code step by step. -/
theorem staging_bind {α β : Type} {x : Staging α} {f : α → Staging β} {a : α}
    (h : x before = .ok (a, mid)) : (x >>= f) before = f a mid := by
  change (x before >>= fun p => f p.1 p.2) = _
  rw [h]
  rfl

/-- What has been staged by code in two steps has been staged by one and then by the other. -/
theorem staging_bind_eq_ok {α β : Type} {x : Staging α} {f : α → Staging β} {b : β} :
    (x >>= f) before = .ok (b, after) ↔
      ∃ a mid, x before = .ok (a, mid) ∧ f a mid = .ok (b, after) := by
  change (x before >>= fun p => f p.1 p.2) = _ ↔ _
  rw [bind_eq_ok]
  exact Prod.exists

theorem staging_pure {α : Type} {a : α} : (pure a : Staging α) before = .ok (a, before) := rfl

theorem staging_map {α β : Type} {x : Staging α} {f : α → β} {a : α}
    (h : x before = .ok (a, mid)) : (f <$> x) before = .ok (f a, mid) := by
  change (x before >>= fun p => .ok (f p.1, p.2)) = _
  rw [h]
  rfl

/-- A new expression gets the first free id. -/
theorem id_of_stageExpr {place : Span} {e : Expr NodeId}
    (h : stageExpr place e before = .ok (id, after)) : id = ⟨before.limit⟩ := by
  cases h
  rfl

/-- A new expression leaves what was staged before as it is. -/
theorem grows_of_stageExpr {place : Span} {e : Expr NodeId} (hs : before.Sound tree)
    (h : stageExpr place e before = .ok (id, after)) :
    (before.atop tree).Grows (after.atop tree) := by
  cases h
  exact hs.grows_add _ place

/-! ### What has been staged -/

/-- **From one edit to a longer one**, below `ids`: the subtrees of `kept` and the new nodes. -/
structure Stages (tree : Tree) (before after : Edit) (kept ids : List NodeId) : Prop where
  before_sound : before.Sound tree
  sound : after.Sound tree
  ops_eq : after.ops = before.ops
  grows : (before.atop tree).Grows (after.atop tree)
  built : Built tree (after.atop tree) kept before.limit after.limit ids

namespace Stages

theorem le (h : Stages tree before after kept ids) : before.limit ≤ after.limit := by
  rw [← h.before_sound.size_atop, ← h.sound.size_atop]
  exact h.grows.size_le

theorem grounded (h : Stages tree before after kept [id]) : (after.atop tree).Grounded id :=
  h.built.grounded_single

theorem nil (hs : before.Sound tree) : Stages tree before before [] [] :=
  ⟨hs, hs, rfl, .refl _, .nil⟩

/-- Code of the tree is there without being staged. -/
theorem keep (hs : before.Sound tree) (hkept : ∀ c ∈ kept, tree.Grounded c) :
    Stages tree before before kept kept := by
  refine ⟨hs, hs, rfl, .refl _, ?_⟩
  exact .keep (before.grows_atop tree) hkept

/-- One piece of code after the other. -/
theorem append (h₁ : Stages tree before mid kept ids) (h₂ : Stages tree mid after kept' ids') :
    Stages tree before after (kept ++ kept') (ids ++ ids') where
  before_sound := h₁.before_sound
  sound := h₂.sound
  ops_eq := h₂.ops_eq.trans h₁.ops_eq
  grows := h₁.grows.trans h₂.grows
  built := (h₁.built.grow h₂.grows).append h₂.built h₁.le h₂.le

/-- What is staged last may stand in front, if it has no landmarks of the tree. -/
theorem rotate (h : Stages tree before after kept (ids ++ [id]))
    (hunmarked : (after.atop tree).landmarksUpTo tree.size id = []) :
    Stages tree before after kept (id :: ids) :=
  { h with built := h.built.rotate hunmarked }

/-- Code over nothing that is kept has no landmarks of the tree. -/
theorem unmarked (h : Stages tree before after [] [id]) :
    (after.atop tree).landmarksUpTo tree.size id = [] := by
  have hmarks := h.built.landmarks_eq
  rwa [List.flatMap_singleton, List.flatMap_nil] at hmarks

/-- What is kept stands below what has been staged over it. -/
theorem reaches_kept (h : Stages tree before after kept [id]) {t : NodeId} (ht : t ∈ kept) :
    (after.atop tree).Reaches id t := by
  have hlisted := h.built.listed
  rw [List.flatMap_singleton] at hlisted
  refine Tree.mem_preorder_iff.1 (hlisted.symm.subset (List.mem_append_left _ ?_))
  exact Tree.mem_flatMap_preorder.2 ⟨t, ht, .refl t⟩

/-- **What has been staged mentions what it keeps.** New nodes stand for no variable. -/
theorem mentions_iff {v : VarId} (h : Stages tree before after kept ids)
    (hkept : ∀ c ∈ kept, tree.Grounded c) :
    (∃ id ∈ ids, (after.atop tree).Mentions v id) ↔ ∃ c ∈ kept, tree.Mentions v c := by
  refine h.built.mentions_iff (after.grows_atop tree) hkept fun n hlo hhi => ?_
  cases hkind : (after.atop tree).kind? n with
  | none => simp [Tree.expr?, hkind]
  | some kind =>
    have hglue := h.sound.glue n kind (h.before_sound.le_limit.trans hlo) hkind
    rw [Tree.expr?, hkind, Option.bind_some]
    exact Kind.var?_of_isGlue hglue

/-- **A node on top** of what has been staged. -/
theorem stage (h : Stages tree before mid kept kind.children)
    (hvars : ∀ v ∈ kind.vars, v.index < tree.vars.size) (hfits : (mid.atop tree).Fits kind)
    (hglue : kind.isGlue = true) :
    Stages tree before (mid.add kind place).2 kept [⟨mid.limit⟩] where
  before_sound := h.before_sound
  sound := h.sound.add (fun c hc => h.sound.size_atop ▸ (h.built.grounded c hc).lt_size) hvars hfits
    hglue
  ops_eq := h.ops_eq
  grows := h.grows.trans (h.sound.grows_add kind place)
  built := by
    rw [Edit.limit_add]
    exact (h.built.grow (h.sound.grows_add kind place)).layer (h.sound.add_kind? kind place)
      h.before_sound.le_limit h.le

end Stages

/-- **An expression has been staged** at `id` and prints as `text`. -/
structure Emits (tree : Tree) (before after : Edit) (kept : List NodeId) (id : NodeId)
    (binding : Option Nat) (text : String) : Prop where
  stages : Stages tree before after kept [id]
  holds : (after.atop tree).Holds .expression id
  prints : (after.atop tree).Prints id binding text

namespace Emits

theorem grow (h : Emits tree before mid kept id binding text)
    (hgrow : (mid.atop tree).Grows (after.atop tree)) :
    (after.atop tree).Holds .expression id ∧ (after.atop tree).Prints id binding text :=
  ⟨hgrow.holds h.holds, h.prints.grow h.stages.grounded hgrow⟩

/-- Code of the tree prints as it does there. -/
theorem keep (hs : before.Sound tree) (hg : tree.Grounded id) (hholds : tree.Holds .expression id)
    (hprints : tree.Prints id binding text) : Emits tree before before [id] id binding text where
  stages := .keep hs (by simpa using hg)
  holds := (before.grows_atop tree).holds hholds
  prints := hprints.grow hg (before.grows_atop tree)

end Emits

/-- **A single expression** over parts that have been staged. What it prints as is read off its
layer. -/
theorem Stages.emit (h : Stages tree before mid kept e.children)
    (hvars : ∀ v ∈ e.vars, v.index < tree.vars.size) (hfits : (mid.atop tree).Fits (.expr e))
    (hglue : (Kind.expr e).isGlue = true)
    (hprints : ∀ {t : Tree} {id}, (mid.atop tree).Grows t → t.Grounded id →
      t.kind? id = some (.expr e) → t.Prints id binding text) :
    ∃ id after, stageExpr place e mid = .ok (id, after) ∧
      Emits tree before after kept id binding text ∧
      (after.atop tree).kind? id = some (.expr e) := by
  have hstage := h.stage place (.expr e) hvars hfits hglue
  have hkind := h.sound.add_kind? (.expr e) place
  have hgrow := h.sound.grows_add (.expr e) place
  exact ⟨_, _, rfl, ⟨hstage, ⟨_, hkind, rfl⟩, hprints hgrow hstage.grounded hkind⟩, hkind⟩

/-! ### Layers -/

/-- A call on code that needs no parentheses. -/
theorem Stages.emitCall (args : List NodeId) {texts : List String}
    (h : Stages tree before mid kept (receiver :: args))
    (hreceiver : (mid.atop tree).Holds .expression receiver)
    (hpart : (mid.atop tree).Prints receiver (some 15) part)
    (hargs : ∀ a ∈ args, (mid.atop tree).Holds .expression a)
    (htexts : (mid.atop tree).PrintsAll args texts) :
    ∃ id after, stageCall place (some receiver) method args mid = .ok (id, after) ∧
      Emits tree before after kept id (some 15) (part ++ "." ++ method ++ argumentsText texts) ∧
      (after.atop tree).kind? id = some (.expr (.call ⟨some receiver, method, args, none⟩)) := by
  refine Stages.emit place (.call ⟨some receiver, method, args, none⟩) h
    (by simp [Expr.vars]) (fun slot c hc => ?_) rfl fun hgrow hg hkind => ?_
  · simp only [Kind.slots, Expr.slots, Expr.children, Option.toList_some, List.singleton_append,
      List.map_cons, List.mem_cons, List.mem_map, Prod.mk.injEq] at hc
    -- the receiver and the arguments stand in places for expressions
    rcases hc with ⟨rfl, rfl⟩ | ⟨a, ha, rfl, rfl⟩
    · exact hreceiver
    · exact hargs _ ha
  · have hprints := Prints.call hg hkind (hpart.grow (h.built.grounded receiver (by simp)) hgrow)
      (htexts.grow (fun a ha => h.built.grounded a (by simp [ha])) hgrow)
    rwa [operandText_tight] at hprints

/-- A call on the implicit receiver. -/
theorem Stages.emitUnqualified (args : List NodeId) {texts : List String}
    (h : Stages tree before mid kept args) (hargs : ∀ a ∈ args, (mid.atop tree).Holds .expression a)
    (htexts : (mid.atop tree).PrintsAll args texts) :
    ∃ id after, stageCall place none method args mid = .ok (id, after) ∧
      Emits tree before after kept id (some 15) (method ++ argumentsText texts) ∧
      (after.atop tree).kind? id = some (.expr (.call ⟨none, method, args, none⟩)) := by
  refine Stages.emit place (.call ⟨none, method, args, none⟩) h (by simp [Expr.vars])
    (fun slot c hc => ?_) rfl fun hgrow hg hkind => ?_
  · simp only [Kind.slots, Expr.slots, Expr.children, Option.toList_none, List.nil_append,
      List.mem_map, Prod.mk.injEq] at hc
    obtain ⟨a, ha, rfl, rfl⟩ := hc
    exact hargs _ ha
  · exact Prints.callUnqualified hg hkind
      (htexts.grow (fun a ha => h.built.grounded a ha) hgrow)

/-- A function literal over an expression or a block. -/
theorem Stages.emitLambda (params : List VarId) (explicitTypes : Bool) {xs : List Variable}
    (h : Stages tree before mid kept [inner]) (hparams : ∀ v ∈ params, v.index < tree.vars.size)
    (hxs : params.mapM tree.var = .ok xs) (hinner : (mid.atop tree).Holds .functionBody inner)
    (hpart : (mid.atop tree).Prints inner binding part) :
    ∃ id after, stageExpr place (.lambda params explicitTypes inner) mid = .ok (id, after) ∧
      Emits tree before after kept id (some 0) (parameterText explicitTypes xs ++ " -> " ++ part) ∧
      (after.atop tree).kind? id = some (.expr (.lambda params explicitTypes inner)) := by
  refine Stages.emit place (.lambda params explicitTypes inner) h hparams (fun slot c hc => ?_) rfl
    fun {t id} hgrow hg hkind => ?_
  · simp only [Kind.slots, Expr.slots, List.mem_singleton, Prod.mk.injEq] at hc
    obtain ⟨rfl, rfl⟩ := hc
    exact hinner
  · have hvar : t.var = tree.var := funext fun v =>
      (((mid.grows_atop tree).trans hgrow).var_eq v)
    exact Prints.lambda hg hkind (hvar ▸ hxs) (hpart.grow h.grounded hgrow)

/-- A method reference through code that needs no parentheses. -/
theorem Emits.methodRef (h : Emits tree before mid kept receiver (some 15) part) :
    ∃ id after, stageExpr place (.methodRef receiver method) mid = .ok (id, after) ∧
      Emits tree before after kept id (some 15) (part ++ "::" ++ method) ∧
      (after.atop tree).kind? id = some (.expr (.methodRef receiver method)) := by
  refine Stages.emit place (.methodRef receiver method) h.stages (by simp [Expr.vars])
    (fun slot c hc => ?_) rfl fun hgrow hg hkind => ?_
  · simp only [Kind.slots, Expr.slots, Expr.children, List.map_cons, List.map_nil,
      List.mem_singleton, Prod.mk.injEq] at hc
    obtain ⟨rfl, rfl⟩ := hc
    exact h.holds
  · have hprints := Prints.methodRef hg hkind (h.prints.grow h.stages.grounded hgrow)
    rwa [operandText_tight] at hprints

/-- An expression in parentheses. -/
theorem Emits.paren (h : Emits tree before mid kept inner binding part) :
    ∃ id after, stageExpr place (.paren inner) mid = .ok (id, after) ∧
      Emits tree before after kept id (some 15) ("(" ++ part ++ ")") := by
  have hfits : (mid.atop tree).Fits (.expr (.paren inner)) := fun slot c hc => by
    simp only [Kind.slots, Expr.slots, Expr.children, List.map_cons, List.map_nil,
      List.mem_singleton, Prod.mk.injEq] at hc
    obtain ⟨rfl, rfl⟩ := hc
    exact h.holds
  obtain ⟨id, after, hrun, hemits, -⟩ := h.stages.emit place (.paren inner) (by simp [Expr.vars])
    hfits rfl fun hgrow hg hkind => Prints.paren hg hkind (h.prints.grow h.stages.grounded hgrow)
  exact ⟨id, after, hrun, hemits⟩

/-! ### Functions -/

section Functions

variable {function : StageFunction} {body : LambdaBody} {qualifier : Qualifier}
  {source cond : NodeId} (hwf : tree.WellFormed) (hs : before.Sound tree)
include hwf hs

omit hs in
/-- What binds as tightly as can be prints without parentheses anywhere. -/
theorem exists_tight (hg : tree.Grounded id)
    (htight : ∃ e, tree.kind? id = some (.expr e) ∧ e.precedence = 15) :
    ∃ text, tree.text id = .ok text ∧ tree.Holds .expression id ∧
      tree.Prints id (some 15) text := by
  obtain ⟨e, hkind, hprecedence⟩ := htight
  obtain ⟨text, hprints⟩ := Tree.exists_prints hg hwf.vars_known
  rw [Tree.expr?_eq_some.2 hkind, Option.map_some, hprecedence] at hprints
  exact ⟨text, hprints.text_eq, ⟨_, hkind, rfl⟩, hprints⟩

theorem exists_stageSource (hg : tree.Grounded source) (hholds : tree.Holds .expression source) :
    ∃ id after text, stageSource tree place source before = .ok (id, after) ∧
      Spelling.source tree source = .ok text ∧
      Emits tree before after [source] id (some 15) text := by
  unfold stageSource Spelling.source
  -- a source that a method can be called on is linked as it is, any other one in parentheses
  cases hreceiver : (tree.expr? source).any isReceiver with
  | true =>
    obtain ⟨e, he, hisReceiver⟩ := (Option.any_eq_true _ _).1 hreceiver
    obtain ⟨text, htext, -, hprints⟩ := exists_tight hwf hg
      ⟨e, Tree.expr?_eq_some.1 he, by cases e <;> simp_all [isReceiver, Expr.precedence]⟩
    exact ⟨source, before, text, rfl, by rw [htext]; rfl, .keep hs hg hholds hprints⟩
  | false =>
    obtain ⟨text, hprints⟩ := Tree.exists_prints hg hwf.vars_known
    obtain ⟨id, after, hrun, hemits⟩ := (Emits.keep hs hg hholds hprints).paren place
    exact ⟨id, after, _, hrun, by rw [hprints.text_eq]; rfl, hemits⟩

theorem exists_stageQualifier (hg : ∀ c ∈ qualifier.kept, tree.Grounded c)
    (htight : ∀ c ∈ qualifier.kept, ∃ e, tree.kind? c = some (.expr e) ∧ e.precedence = 15) :
    ∃ id after text, stageQualifier place qualifier before = .ok (id, after) ∧
      Spelling.qualifier tree qualifier = .ok text ∧
      Emits tree before after qualifier.kept id (some 15) text := by
  cases qualifier with
  -- what is no code is a node of its own, and code is linked where it is
  | type type =>
    obtain ⟨id, after, hrun, hemits, -⟩ := (Stages.nil hs).emit place (.typeName type)
      (by simp [Expr.vars]) (by simp [Tree.Fits, Kind.slots, Expr.slots, Expr.children]) rfl
      fun _ hg hkind => Prints.typeName hg hkind
    exact ⟨id, after, _, hrun, rfl, hemits⟩
  | thisRef =>
    obtain ⟨id, after, hrun, hemits, -⟩ := (Stages.nil hs).emit place .thisRef
      (by simp [Expr.vars]) (by simp [Tree.Fits, Kind.slots, Expr.slots, Expr.children]) rfl
      fun _ hg hkind => Prints.thisRef hg hkind
    exact ⟨id, after, _, hrun, rfl, hemits⟩
  | superRef =>
    obtain ⟨id, after, hrun, hemits, -⟩ := (Stages.nil hs).emit place .superRef
      (by simp [Expr.vars]) (by simp [Tree.Fits, Kind.slots, Expr.slots, Expr.children]) rfl
      fun _ hg hkind => Prints.superRef hg hkind
    exact ⟨id, after, _, hrun, rfl, hemits⟩
  | expr receiver =>
    have hgr := hg receiver (by simp [Qualifier.kept])
    obtain ⟨text, htext, hholds, hprints⟩ :=
      exists_tight hwf hgr (htight receiver (by simp [Qualifier.kept]))
    exact ⟨receiver, before, text, rfl, htext, .keep hs hgr hholds hprints⟩

theorem exists_stageBody (hg : tree.Grounded body.node) (hholds : tree.Holds body.slot body.node) :
    ∃ id after text binding, stageBody place body before = .ok (id, after) ∧
      Spelling.body tree body = .ok text ∧ Stages tree before after [body.node] [id] ∧
      (after.atop tree).Holds .functionBody id ∧ (after.atop tree).Prints id binding text := by
  obtain ⟨text, hprints⟩ := Tree.exists_prints hg hwf.vars_known
  have hgrow := before.grows_atop tree
  have hkeep : Stages tree before before [body.node] [body.node] := .keep hs (by simpa using hg)
  obtain ⟨kind, hkind, hadmits⟩ := hholds
  -- a body that fits is linked as it is, and any other statement is put in a block
  cases body with
  | expr id =>
    refine ⟨id, before, text, _, rfl, hprints.text_eq, hkeep, ⟨kind, hgrow.kind?_of_some hkind, ?_⟩,
      hprints.grow hg hgrow⟩
    cases kind <;> first | rfl | cases hadmits
  | block id =>
    exact ⟨id, before, text, _, rfl, hprints.text_eq, hkeep, hgrow.holds ⟨kind, hkind, hadmits⟩,
      hprints.grow hg hgrow⟩
  | wrapped id =>
    have hstage := hkeep.stage place (.stmt (.block [id]))
      (by simp [Kind.vars, Stmt.vars]) (fun slot c hc => by
        simp only [Kind.slots, Stmt.slots, List.map_cons, List.map_nil, List.mem_singleton,
          Prod.mk.injEq] at hc
        obtain ⟨rfl, rfl⟩ := hc
        refine ⟨kind, hgrow.kind?_of_some hkind, ?_⟩
        cases kind <;> first | rfl | cases hadmits) rfl
    have hblock := hs.add_kind? (.stmt (.block [id])) place
    have htext := Prints.block hstage.grounded hblock
      ((hprints.grow hg (hgrow.trans (hs.grows_add _ place))).all_singleton)
    rw [blockText_singleton] at htext
    refine ⟨_, _, _, _, rfl, ?_, hstage, ⟨_, hblock, rfl⟩, htext⟩
    rw [Spelling.body, show tree.text id = .ok text from hprints.text_eq]
    rfl

/-- **A function** is staged, and is a function literal or a method reference. -/
theorem exists_stageFunction (hsensible : function.Sensible tree)
    (hg : ∀ c ∈ function.kept, tree.Grounded c) :
    ∃ id after text binding, stageFunction place function before = .ok (id, after) ∧
      Spelling.function tree function = .ok text ∧
      Emits tree before after function.kept id binding text ∧
      (after.atop tree).isClosure id = true ∧ tree.size ≤ id.index := by
  cases function with
  | methodRef qualifier method =>
    -- the qualifier first, and the reference around it
    obtain ⟨q, mid, text, hrun, htext, hemits⟩ := exists_stageQualifier place hwf hs hg hsensible
    obtain ⟨id, after, hrun', hemits', hkind⟩ := hemits.methodRef place method
    refine ⟨id, after, _, _, ?_, ?_, hemits', ?_, ?_⟩
    · rw [stageFunction, staging_bind hrun, hrun']
    · rw [Spelling.function, htext]
      rfl
    · rw [Tree.isClosure, Tree.expr?_eq_some.2 hkind]
      rfl
    · rw [id_of_stageExpr hrun']
      exact hemits.stages.sound.le_limit
  | lambda param body =>
    obtain ⟨hparam, hholds⟩ := hsensible
    obtain ⟨v, hv⟩ : ∃ v, tree.var param = .ok v := ⟨_, Tree.var_of_lt hparam⟩
    -- the body first, and the literal around it
    obtain ⟨inner, mid, text, binding, hrun, htext, hstages, hinner, hprints⟩ :=
      exists_stageBody place hwf hs (hg body.node (by simp [StageFunction.kept])) hholds
    have hvars : [param].mapM tree.var = .ok [v] := by simp [List.mapM_cons, hv]
    obtain ⟨id, after, hrun', hemits, hkind⟩ := hstages.emitLambda place [param] false
      (by simpa using hparam) hvars hinner hprints
    refine ⟨id, after, _, _, ?_, ?_, hemits, ?_, ?_⟩
    · rw [stageFunction, staging_bind hrun, hrun']
    · rw [Spelling.function, hv, htext]
      rfl
    · rw [Tree.isClosure, Tree.expr?_eq_some.2 hkind]
      rfl
    · rw [id_of_stageExpr hrun']
      exact hstages.sound.le_limit

/-! ### Stages -/

omit hs in
/-- **A call of a stage's method**, and where its function is. -/
theorem Emits.exists_stageStep (h : Emits tree before mid kept receiver (some 15) part)
    (hsensible : function.Sensible tree) (hg : ∀ c ∈ function.kept, tree.Grounded c) :
    ∃ id after text f, stageStep place method receiver function mid = .ok (id, after) ∧
      Spelling.function tree function = .ok text ∧
      Emits tree before after (kept ++ function.kept) id (some 15)
        (Spelling.call part method text) ∧
      (after.atop tree).kind? id = some (.expr (.call ⟨some receiver, method, [f], none⟩)) ∧
      (after.atop tree).isClosure f = true ∧ tree.size ≤ f.index ∧
      (∀ t ∈ function.kept, (after.atop tree).Reaches f t) ∧
      (after.atop tree).landmarksUpTo tree.size f = function.kept.flatMap tree.landmarks ∧
      (mid.atop tree).Grows (after.atop tree) := by
  -- the function is staged, and the call links it behind the receiver
  obtain ⟨f, mid', text, binding, hrun, htext, hemits, hclosure, hsize⟩ :=
    exists_stageFunction place hwf h.stages.sound hsensible hg
  have hreceiver := h.grow hemits.stages.grows
  have hstages := h.stages.append hemits.stages
  obtain ⟨id, after, hrun', hcall, hkind⟩ := hstages.emitCall place method [f]
    hreceiver.1 hreceiver.2 (by simpa using hemits.holds) hemits.prints.all_singleton
  have hgrow := grows_of_stageExpr hstages.sound hrun'
  refine ⟨id, after, text, f, ?_, htext, ?_, hkind, ?_, hsize, fun t ht => ?_, ?_,
    hemits.stages.grows.trans hgrow⟩
  · rw [stageStep, staging_bind hrun, hrun']
  · rw [Spelling.call_eq]
    exact hcall
  · obtain ⟨e, he, hisClosure⟩ := (Option.any_eq_true _ _).1 hclosure
    rw [Tree.isClosure, Tree.expr?_eq_some.2 (hgrow.kind?_of_some (Tree.expr?_eq_some.1 he))]
    exact hisClosure
  · exact hgrow.reaches hemits.stages.grounded (hemits.stages.reaches_kept ht)
  · rw [← (hemits.stages.built.grow hgrow).landmarks_eq, List.flatMap_singleton]

omit hs in
/-- Filters, one after the other. -/
theorem Emits.exists_stageFilters (conditions : List NodeId) {param : VarId} {p : Variable}
    (hp : tree.var param = .ok p) (hparam : param.index < tree.vars.size)
    (h : Emits tree before mid kept receiver (some 15) part)
    (hholds : ∀ c ∈ conditions, tree.Grounded c ∧ tree.Holds .expression c) :
    ∃ id after text,
      (conditions.map (filterOf param)).foldlM (stageStep place "filter") receiver mid =
        .ok (id, after) ∧
      conditions.foldlM (fun text cond =>
          return Spelling.call text "filter" (p.name ++ " -> " ++ (← tree.text cond))) part =
        (.ok text : Lookup String) ∧
      Emits tree before after (kept ++ conditions) id (some 15) text := by
  induction conditions generalizing mid kept receiver part with
  | nil => exact ⟨receiver, mid, part, rfl, rfl, by simpa using h⟩
  | cons cond rest ih =>
    obtain ⟨hgc, hcond⟩ := hholds cond (by simp)
    -- the first filter, and on what it yields the others
    obtain ⟨id, mid', text, f, hrun, htext, hemits, -⟩ := h.exists_stageStep place "filter" hwf
      (show (filterOf param cond).Sensible tree from ⟨hparam, hcond⟩)
      (by simpa [filterOf, StageFunction.kept, LambdaBody.node] using hgc)
    obtain ⟨last, after, text', hrest, htexts, hdone⟩ :=
      ih hemits fun c hc => hholds c (by simp [hc])
    refine ⟨last, after, text', ?_, ?_, ?_⟩
    · rw [List.map_cons, List.foldlM_cons, staging_bind hrun, hrest]
    · obtain ⟨condText, hcondText⟩ := Tree.exists_prints hgc hwf.vars_known
      -- the literal is written with the parameter in front of the arrow
      have hname : text = p.name ++ " -> " ++ condText := by
        rw [filterOf, Spelling.function, hp, Spelling.body, hcondText.text_eq] at htext
        exact (Except.ok.inj htext).symm
      rw [hname] at htexts
      rw [List.foldlM_cons, hcondText.text_eq]
      exact htexts
    · simpa [filterOf, StageFunction.kept, LambdaBody.node] using hdone

end Functions

/-! ### The chain -/

section Chain

variable {analyzer : Analyzer} (options : Options) {loop : NodeId} {candidate : Candidate}
  {ending : Ending} {plan : Pipeline} {collector : Collector}

/-- A stream is made for an accumulation and for a filter. -/
theorem Ends.needsStream_eq (hends : Ends analyzer tree candidate ending)
    (h : Follows tree candidate ending plan) :
    plan.needsStream =
      decide (candidate.kind = .accumulation ∨ candidate.chain.conditions ≠ []) := by
  rw [Pipeline.needsStream, h.terminal_eq, h.filters_eq, h.mapper_eq, Candidate.kind]
  cases hends with
  | performed action function_runs =>
    cases hconditions : candidate.chain.conditions <;>
      simp [action, LoopAction.kind, Terminal.isCollecting]
  | gathered action found mapper_maps gathers =>
    cases gathers <;> simp [action, LoopAction.kind, Terminal.isCollecting]

/-- The functions that a pipeline ends with can be staged. -/
theorem Ends.sensible_mapper (hends : Ends analyzer tree candidate ending) (hwf : tree.WellFormed)
    (hloop : tree.Attached loop) (hfound : Candidate.Found analyzer tree loop candidate) :
    ∀ f ∈ ending.mapper.toList, f.Sensible tree := by
  cases hends with
  | performed action function_runs => simp
  | gathered action found mapper_maps gathers =>
    have hcall := (hfound.action_attached hwf hloop).reaches
      found.reaches_call
    obtain ⟨resolved, hkind⟩ := found.call
    refine mapper_maps.sensible (hfound.param_known hwf) ?_
    exact hwf.fits _ _ hcall (Tree.call?_eq_some.1 hkind) .expression _
      (by simp [Kind.slots, Expr.slots, Expr.children])

/-- Staging a chain, one stage after the other. -/
theorem stageChain_eq (tree : Tree) (place : Span) (plan : Pipeline) :
    stageChain tree place plan =
      stageSource tree place plan.source >>= fun source =>
        (if plan.needsStream then stageCall place (some source) "stream" [] else pure source) >>=
          fun stream => plan.filters.foldlM (stageStep place "filter") stream >>= fun filtered =>
            match plan.mapper with
            | some mapper => stageStep place "map" filtered mapper
            | none => pure filtered := by
  unfold stageChain
  congr 1
  funext source
  cases plan.needsStream <;> rfl

/-- **The chain** of a plan, from the source to the mapping. -/
theorem exists_stageChain (hwf : tree.WellFormed) (hs : before.Sound tree)
    (hloop : tree.Attached loop) (hfound : Candidate.Found analyzer tree loop candidate)
    (hends : Ends analyzer tree candidate ending) (h : Follows tree candidate ending plan)
    (hkept : ∀ c ∈ plan.kept, tree.Grounded c) :
    ∃ id after text, stageChain tree place plan before = .ok (id, after) ∧
      Spelling.chain tree candidate ending.mapper = .ok text ∧
      Emits tree before after (chainParts candidate ending) id (some 15) text := by
  have hparam := hfound.param_known hwf
  obtain ⟨p, hp⟩ : ∃ p, tree.var candidate.param = .ok p := ⟨_, Tree.var_of_lt hparam⟩
  rw [h.kept_eq] at hkept
  -- the source first
  obtain ⟨source, mid, sourceText, hsource, hsourceText, hemitsSource⟩ :=
    exists_stageSource place hwf hs (hkept _ (by simp)) (hfound.source_holds hwf hloop)
  -- a stream, if there is a use for one
  obtain ⟨stream, mid', streamText, hstream, hstreamText, hemitsStream⟩ : ∃ id after text,
      (if plan.needsStream then stageCall place (some source) "stream" [] else pure source :
        Staging NodeId) mid = .ok (id, after) ∧
      text = (if candidate.kind = .accumulation ∨ candidate.chain.conditions ≠ [] then
        Spelling.call sourceText "stream" "" else sourceText) ∧
      Emits tree before after [candidate.source] id (some 15) text := by
    rw [hends.needsStream_eq h]
    split
    · next hstreams =>
      rw [decide_eq_true_eq] at hstreams
      obtain ⟨id, after, hrun, hcall, -⟩ := hemitsSource.stages.emitCall place "stream" []
        hemitsSource.holds hemitsSource.prints (by simp) .nil
      refine ⟨id, after, _, hrun, rfl, ?_⟩
      rw [if_pos hstreams, Spelling.call_eq, ← argumentsText_nil]
      exact hcall
    · next hstreams =>
      rw [decide_eq_true_eq] at hstreams
      exact ⟨source, mid, _, rfl, rfl, by rw [if_neg hstreams]; exact hemitsSource⟩
  -- then the filters, one behind the other
  obtain ⟨filtered, mid'', filteredText, hfilters, hfilteredText, hemitsFilters⟩ :=
    hemitsStream.exists_stageFilters place hwf candidate.chain.conditions hp hparam fun c hc =>
        ⟨hkept c (by simp [hc]), hfound.condition_holds hwf hloop hc⟩
  -- what the plan asks for up to here is these three
  have hfront : ∀ k : NodeId → Staging NodeId,
      (stageSource tree place plan.source >>= fun source =>
        (if plan.needsStream then stageCall place (some source) "stream" [] else pure source) >>=
          fun stream => plan.filters.foldlM (stageStep place "filter") stream >>= k) before =
        k filtered mid'' := by
    intro k
    rw [h.source_eq, staging_bind hsource, staging_bind hstream, h.filters_eq,
      staging_bind hfilters]
  cases hmapper : ending.mapper with
  | none =>
    refine ⟨filtered, mid'', filteredText, ?_, ?_,
      by simpa [chainParts, hmapper] using hemitsFilters⟩
    · rw [stageChain_eq, hfront, h.mapper_eq, hmapper]
      rfl
    · simp only [Spelling.chain, hsourceText, ok_bind, hp, ← hstreamText, hfilteredText]
      rfl
  | some mapper =>
    -- and the mapping, if there is one
    obtain ⟨id, after, text, f, hrun, htext, hemits, -⟩ :=
      hemitsFilters.exists_stageStep place "map" hwf
      (hends.sensible_mapper hwf hloop hfound mapper (by simp [hmapper]))
      fun c hc => hkept c (by simp [hmapper, tail, hc])
    refine ⟨id, after, _, ?_, ?_, by simpa [chainParts, hmapper] using hemits⟩
    · rw [stageChain_eq, hfront, h.mapper_eq, hmapper]
      exact hrun
    · simp only [Spelling.chain, hsourceText, ok_bind, hp, ← hstreamText, hfilteredText, htext]
      rfl

/-! ### Collectors -/

theorem stageCollector_eq (options : Options) (place : Span) (factory : String)
    (args : List NodeId) :
    stageCollector options place factory args =
      ((match options.collectorStyle with
        | .qualified => some <$> stageExpr place (.typeName (.simple "Collectors"))
        | .staticImport => pure none) : Staging (Option NodeId)) >>= fun receiver =>
        stageCall place receiver factory args := by
  unfold stageCollector
  cases options.collectorStyle <;> rfl

/-- The call that makes a collector. -/
theorem Stages.exists_stageCollector {args : List NodeId} {texts : List String} {argument : String}
    (h : Stages tree before mid kept args) (hargs : ∀ a ∈ args, (mid.atop tree).Holds .expression a)
    (htexts : (mid.atop tree).PrintsAll args texts)
    (hargument : argumentsText texts = argumentsText [argument]) :
    ∃ id after, stageCollector options place method args mid = .ok (id, after) ∧
      Emits tree before after kept id (some 15)
        (Spelling.factory options.collectorStyle method argument) := by
  rw [stageCollector_eq]
  cases hstyle : options.collectorStyle with
  | staticImport =>
    -- imported, the factory is called without a receiver
    obtain ⟨id, after, hrun, hemits, -⟩ := h.emitUnqualified place method args
      hargs htexts
    refine ⟨id, after, ?_, ?_⟩
    · rw [staging_bind staging_pure, hrun]
    · rw [hargument] at hemits
      simpa [Spelling.factory, argumentsText, String.append_assoc] using hemits
  | qualified =>
    obtain ⟨receiver, mid', hreceiver, hemits, -⟩ := (Stages.nil h.sound).emit place
      (.typeName (.simple "Collectors")) (by simp [Expr.vars])
      (by simp [Tree.Fits, Kind.slots, Expr.slots, Expr.children]) rfl
      fun _ hg hkind => Prints.typeName hg hkind
    have hgrow := hemits.stages.grows
    -- the receiver is staged behind the arguments and stands in front of them
    have hstages : Stages tree before mid' kept (receiver :: args) := by
      have hboth := (h.append hemits.stages).rotate hemits.stages.unmarked
      rwa [List.append_nil] at hboth
    obtain ⟨id, after, hrun, hcall, -⟩ := hstages.emitCall place method args
      hemits.holds hemits.prints (fun a ha => hgrow.holds (hargs a ha))
      (htexts.grow (fun a ha => h.built.grounded a ha) hgrow)
    refine ⟨id, after, ?_, ?_⟩
    · rw [staging_bind (staging_map hreceiver), hrun]
    · rw [hargument] at hcall
      rw [Spelling.factory, Spelling.call_eq]
      have hname : (ClassType.simple "Collectors").text = "Collectors" := by
        simp [ClassType.text, ClassType.simple]
      rwa [hname] at hcall

/-- The elements collected by a collector. -/
theorem Emits.exists_stageCollected (argument : String) {args : List NodeId} {texts : List String}
    (hchain : Emits tree before mid kept receiver (some 15) part)
    (h : Stages tree mid after kept' args)
    (hargs : ∀ a ∈ args, (after.atop tree).Holds .expression a)
    (htexts : (after.atop tree).PrintsAll args texts)
    (hargument : argumentsText texts = argumentsText [argument]) :
    ∃ id last, stageCollected options place receiver method args after = .ok (id, last) ∧
      Emits tree before last (kept ++ kept') id (some 15)
        (Spelling.call part "collect" (Spelling.factory options.collectorStyle method argument)) ∧
      tree.size ≤ id.index ∧ (mid.atop tree).Grows (last.atop tree) ∧
      ∃ collector, (last.atop tree).kind? id =
        some (.expr (.call ⟨some receiver, "collect", [collector], none⟩)) := by
  obtain ⟨collected, mid', hrun, hemits⟩ := h.exists_stageCollector place method options
    hargs htexts hargument
  have hreceiver := hchain.grow hemits.stages.grows
  -- the collector comes behind the chain that it is the argument of
  have hstages := hchain.stages.append hemits.stages
  obtain ⟨id, last, hrun', hcall, hkind⟩ := hstages.emitCall place
    "collect" [collected] hreceiver.1 hreceiver.2
    (by simpa using hemits.holds) hemits.prints.all_singleton
  refine ⟨id, last, ?_, ?_, ?_, hemits.stages.grows.trans (grows_of_stageExpr hstages.sound hrun'),
    collected, hkind⟩
  · rw [stageCollected, staging_bind hrun, hrun']
  · rw [Spelling.call_eq]
    exact hcall
  · rw [id_of_stageExpr hrun']
    exact hemits.stages.sound.le_limit

/-- **The elements collected** into a new collection. -/
theorem Emits.exists_stageCollection (hwf : tree.WellFormed)
    (hchain : Emits tree before mid kept receiver (some 15) part)
    (hg : ∀ c ∈ collector.kept, tree.Grounded c ∧ tree.Holds .expression c) :
    ∃ id after text, stageCollection options place receiver collector mid = .ok (id, after) ∧
      Spelling.collector tree options.collectorStyle collector = .ok text ∧
      Emits tree before after (kept ++ collector.kept) id (some 15)
        (Spelling.call part "collect" text) ∧ tree.size ≤ id.index ∧
      (mid.atop tree).Grows (after.atop tree) ∧
      ∃ made, (after.atop tree).kind? id =
        some (.expr (.call ⟨some receiver, "collect", [made], none⟩)) := by
  have hs := hchain.stages.sound
  cases collector with
  | list =>
    obtain ⟨id, after, hrun, hemits, hrest⟩ :=
      hchain.exists_stageCollected place "toList" options "" (.nil hs) (by simp) .nil rfl
    exact ⟨id, after, _, hrun, rfl, hemits, hrest⟩
  | set =>
    obtain ⟨id, after, hrun, hemits, hrest⟩ := hchain.exists_stageCollected place "toSet" options ""
      (.nil hs) (by simp) .nil rfl
    exact ⟨id, after, _, hrun, rfl, hemits, hrest⟩
  | custom supplier =>
    obtain ⟨hgs, hholds⟩ := hg supplier (by simp [Collector.kept])
    obtain ⟨text, hprints⟩ := Tree.exists_prints hgs hwf.vars_known
    have hkeep := Emits.keep hs hgs hholds hprints
    -- an expression may stand behind an arrow
    have hbody : (mid.atop tree).Holds .functionBody supplier := by
      obtain ⟨kind, hkind, hadmits⟩ := hkeep.holds
      refine ⟨kind, hkind, ?_⟩
      cases kind <;> first | rfl | cases hadmits
    -- the supplier is staged as a literal without parameters
    obtain ⟨lambda, mid', hlambda, hemitsLambda, -⟩ := hkeep.stages.emitLambda place [] false
      (by simp) rfl hbody hkeep.prints
    obtain ⟨id, after, hrun, hemits, hrest⟩ := hchain.exists_stageCollected place
      "toCollection" options _ hemitsLambda.stages (by simpa using hemitsLambda.holds)
      hemitsLambda.prints.all_singleton rfl
    refine ⟨id, after, _, ?_, ?_, hemits, hrest⟩
    · rw [stageCollection, staging_bind hlambda, hrun]
    · rw [Spelling.collector, hprints.text_eq]
      rfl

end Chain

end Pipeline

end LoopToStream
