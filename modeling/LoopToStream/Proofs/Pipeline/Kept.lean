import LoopToStream.Proofs.Pipeline.Plan
import LoopToStream.Proofs.Tree.Regrowth

/-!
# What a pipeline keeps of a loop

A plan refers to code that is there, and that code is linked from the pipeline as it is:
`Pipeline.kept` lists it. The edit that puts the pipeline in the place of the loop is only let
through, and only leaves a tree behind, if the parts that are kept do not overlap and the
comments that are saved are in none of them.

`Pipeline.Follows.salvage_of` shows that this is so for every plan that follows a loop, whichever
way it ends. The reason is the same each time: the source, the conditions and what is kept of the
action stand in the loop side by side, and what is kept besides is the initial value of a
declaration in front of it (`Pipeline.Ends.exists_place`).
-/

namespace LoopToStream

open scoped List
open LoopToStream.Tree (mem_preorder_iff mem_flatMap_preorder Salvage)

/-! ### The code that a plan refers to -/

/-- The receiver that stays in front of `::`. -/
def Qualifier.kept : Qualifier → List NodeId
  | .expr id => [id]
  | .type _ | .thisRef | .superRef => []

namespace LambdaBody

/-- The code that a function literal is made over. -/
def node : LambdaBody → NodeId
  | expr id | block id | wrapped id => id

/-- What that code has to be. -/
def slot : LambdaBody → Slot
  | expr _ => .expression
  | block _ => .functionBody
  | wrapped _ => .statement

end LambdaBody

namespace StageFunction

/-- The code that a function refers to. -/
def kept : StageFunction → List NodeId
  | methodRef qualifier _ => qualifier.kept
  | lambda _ body => [body.node]

/-- A function of a known parameter over code of the right sort, or a method reference through a
receiver that needs no parentheses. -/
def Sensible (tree : Tree) : StageFunction → Prop
  | methodRef qualifier _ =>
    ∀ id ∈ qualifier.kept, ∃ e, tree.kind? id = some (.expr e) ∧ e.precedence = 15
  | lambda param body => param.index < tree.vars.size ∧ tree.Holds body.slot body.node

end StageFunction

/-- The creation that a collection is supplied by. -/
def Collector.kept : Collector → List NodeId
  | .custom supplier => [supplier]
  | .list | .set => []

/-- A supplier is the creation that the collector was made for. -/
theorem Pipeline.eq_of_mem_kept_collectorFor {type : ClassType} {init t : NodeId}
    (h : t ∈ (Pipeline.collectorFor type init).kept) : t = init := by
  unfold Pipeline.collectorFor at h
  split at h
  · simp [Collector.kept] at h
  · split at h
    · simp [Collector.kept] at h
    · simpa [Collector.kept] using h

/-- The code that the end of a pipeline refers to. -/
def Terminal.kept : Terminal → List NodeId
  | .forEach function => function.kept
  | .collect collector => collector.kept
  | .addAll receiver => receiver.toList

namespace Pipeline

/-- The code that the mapping and the end of a pipeline refer to. -/
def tail (mapper : Option StageFunction) (terminal : Terminal) : List NodeId :=
  mapper.toList.flatMap StageFunction.kept ++ terminal.kept

/-- All the code that a plan refers to. -/
def kept (plan : Pipeline) : List NodeId :=
  plan.source :: plan.filters.flatMap StageFunction.kept ++ tail plan.mapper plan.terminal

/-- The code of a loop that the chain of its pipeline links, up to the mapping. -/
def chainParts (candidate : Candidate) (ending : Ending) : List NodeId :=
  candidate.source :: candidate.chain.conditions ++ ending.mapper.toList.flatMap StageFunction.kept

/-- The code of a loop that its pipeline links as it is, in the order in which it does. -/
def linkedParts (candidate : Candidate) (ending : Ending) : List NodeId :=
  candidate.source :: candidate.chain.conditions ++ tail ending.mapper ending.terminal

/-- The statement that stays in front of the loop and takes its place. -/
def foldedInto (fold : Option Fold) : List NodeId := fold.toList.map Fold.declaration

/-- The comments that stand in front of the pipeline: those that are saved, where there is room. -/
def inFront (tree : Tree) (candidate : Candidate) (ending : Ending) : List NodeId :=
  if (tree.parent? candidate.loop).any tree.isBlock then savedComments tree candidate ending else []

variable {analyzer : Analyzer} {tree : Tree} {param : VarId} {value action loop n : NodeId}
  {candidate : Candidate} {ending : Ending} {plan : Pipeline} {mapper : Option StageFunction}
  {function : StageFunction}

theorem inFront_subset : inFront tree candidate ending ⊆ savedComments tree candidate ending := by
  unfold inFront
  split
  · exact List.Subset.refl _
  · exact List.nil_subset _

theorem Follows.kept_eq (h : Follows tree candidate ending plan) :
    plan.kept = candidate.source :: candidate.chain.conditions ++
      tail ending.mapper ending.terminal := by
  have hfilters : plan.filters.flatMap StageFunction.kept = candidate.chain.conditions := by
    rw [h.filters_eq, List.flatMap_map]
    exact List.flatMap_singleton' _
  rw [kept, hfilters, h.source_eq, h.mapper_eq, h.terminal_eq]

theorem Follows.kept_eq_linkedParts (h : Follows tree candidate ending plan) :
    plan.kept = linkedParts candidate ending := h.kept_eq

theorem Follows.kept_eq_chainParts (h : Follows tree candidate ending plan) :
    plan.kept = chainParts candidate ending ++ ending.terminal.kept := by
  rw [h.kept_eq, tail, chainParts, List.append_assoc]

/-! ### Functions -/

/-- What a mapping refers to is in the value, or is the value. -/
theorem Maps.reaches (h : Maps analyzer tree param value mapper) :
    ∀ t ∈ mapper.toList.flatMap StageFunction.kept, tree.Reaches value t := by
  intro t ht
  cases h with
  | element is_param => simp at ht
  | literal not_param =>
    obtain rfl : t = value := by simpa [StageFunction.kept, LambdaBody.node] using ht
    exact .refl _
  -- of a call that is forwarded, the receiver is kept
  | @reference qualifier method not_param answer form =>
    cases qualifier with
    | expr receiver =>
      obtain rfl : t = receiver := by simpa [StageFunction.kept, Qualifier.kept] using ht
      exact (tree.reaches_skipParens _).tail form.mem_parts
    | _ => simp [StageFunction.kept, Qualifier.kept] at ht

/-- A mapping refers to one piece of code at most. -/
theorem Maps.length_le (h : Maps analyzer tree param value mapper) :
    (mapper.toList.flatMap StageFunction.kept).length ≤ 1 := by
  cases h with
  | element is_param => simp
  | literal not_param => simp [StageFunction.kept]
  | @reference qualifier method not_param answer form =>
    cases qualifier <;> simp [StageFunction.kept, Qualifier.kept]

theorem Maps.sensible (h : Maps analyzer tree param value mapper)
    (hparam : param.index < tree.vars.size) (hvalue : tree.Holds .expression value) :
    ∀ f ∈ mapper.toList, f.Sensible tree := by
  intro f hf
  cases h with
  | element is_param => simp at hf
  | literal not_param =>
    obtain rfl := List.mem_singleton.1 hf
    exact ⟨hparam, hvalue⟩
  -- a receiver in front of `::` is one that needs no parentheses
  | @reference qualifier method not_param answer form =>
    obtain rfl := List.mem_singleton.1 hf
    intro id hid
    cases qualifier with
    | expr receiver =>
      obtain rfl := List.mem_singleton.1 hid
      exact form.precedence_eq
    | _ => simp [Qualifier.kept] at hid

/-- What a function refers to is in the action, or is the action. -/
theorem Runs.reaches (h : Runs analyzer tree param action function) :
    ∀ t ∈ function.kept, tree.Reaches action t := by
  -- an expression is the one part of its statement
  have hvalue : ∀ {v}, tree.kind? action = some (.stmt (.expr v)) → v ∈ tree.parts action :=
    fun here => by simp [Tree.parts_eq_children here, Kind.children, Stmt.children]
  intro t ht
  cases h with
  | expression here => exact List.mem_singleton.1 ht ▸ .of_mem (hvalue here)
  | block here => exact List.mem_singleton.1 ht ▸ .refl _
  | statement here no_expr no_block => exact List.mem_singleton.1 ht ▸ .refl _
  | @reference value qualifier method here answer form =>
    cases qualifier with
    | expr receiver =>
      obtain rfl := List.mem_singleton.1 ht
      exact ((tree.reaches_skipParens _).tail form.mem_parts).head (hvalue here)
    | _ => simp [StageFunction.kept, Qualifier.kept] at ht

/-- A function refers to one piece of code at most. -/
theorem Runs.length_le (h : Runs analyzer tree param action function) :
    function.kept.length ≤ 1 := by
  cases h with
  | @reference value qualifier method here answer form =>
    cases qualifier <;> simp [StageFunction.kept, Qualifier.kept]
  | _ => simp [StageFunction.kept]

theorem Runs.sensible (h : Runs analyzer tree param action function)
    (hparam : param.index < tree.vars.size)
    (hfits : ∀ kind, tree.kind? action = some kind → tree.Fits kind) : function.Sensible tree := by
  cases h with
  | expression here =>
    exact ⟨hparam, hfits _ here .expression _ (by simp [Kind.slots, Stmt.slots, LambdaBody.node])⟩
  | block here => exact ⟨hparam, _, here, rfl⟩
  | statement here no_expr no_block => exact ⟨hparam, _, here, rfl⟩
  | @reference value qualifier method here answer form =>
    intro id hid
    cases qualifier with
    | expr receiver =>
      obtain rfl := List.mem_singleton.1 hid
      exact form.precedence_eq
    | _ => simp [Qualifier.kept] at hid

/-- A statement that a method reference runs has no landmarks in it. -/
theorem Runs.unmarked (h : Runs analyzer tree param action function)
    (hg : tree.Grounded action) (hreference : function.isMethodRef = true) :
    tree.Unmarked action := by
  cases h with
  | @reference value qualifier method here answer form =>
    have hvalue : value ∈ tree.parts action := by
      simp [Tree.parts_eq_children here, Kind.children, Stmt.children]
    -- its expression is a call in parentheses perhaps, and no landmark is in either
    have hgv := hg.of_mem_parts hvalue
    refine .layer here rfl fun c hc => ?_
    obtain rfl := List.mem_singleton.1 hc
    exact .of_skipParens hgv (form.unmarked (hgv.of_reaches (tree.reaches_skipParens _)))
  | _ => cases hreference

/-- A statement that is an expression has the landmarks of the expression. -/
theorem landmarks_exprStmt (hg : tree.Grounded action)
    (here : tree.kind? action = some (.stmt (.expr value))) :
    tree.landmarks action = tree.landmarks value := by
  rw [hg.landmarks_eq, Tree.mark?_eq_of_kind? here, Tree.parts_eq_children here]
  simp [Kind.mark?, Kind.isLandmark, Kind.children, Stmt.children]

/-- **No landmark of the action is lost** by writing it as a function. -/
theorem Runs.landmarks_eq (h : Runs analyzer tree param action function)
    (hg : tree.Grounded action) :
    function.kept.flatMap tree.landmarks = tree.landmarks action := by
  cases h with
  | expression here =>
    rw [landmarks_exprStmt hg here]
    exact List.flatMap_singleton ..
  | block here => exact List.flatMap_singleton ..
  | statement here no_expr no_block => exact List.flatMap_singleton ..
  | reference here answer form =>
    -- there is none
    have hrun : Runs analyzer tree param action _ := .reference here answer form
    have hunmarked := hrun.unmarked hg rfl
    rw [hunmarked.landmarks_eq, List.flatMap_eq_nil_iff]
    exact fun t ht => (hunmarked.of_reaches (hrun.reaches t ht)).landmarks_eq

/-! ### The end of a pipeline -/

theorem flatMap_preorder_sublist {a : NodeId} {ids : List NodeId} (hlength : ids.length ≤ 1)
    (hg : tree.Grounded a) (hids : ∀ t ∈ ids, tree.Reaches a t) :
    ids.flatMap tree.preorder <+ tree.preorder a := by
  match ids, hlength with
  | [], _ => simp
  | [t], _ =>
    rw [List.flatMap_singleton]
    exact hg.preorder_sublist (hids t (by simp))

/-- **What is kept of the action** stands in it side by side, and what is kept besides in the
declaration. -/
theorem Ends.tail_subperm (h : Ends analyzer tree candidate ending)
    (hg : tree.Grounded candidate.chain.action) :
    (tail ending.mapper ending.terminal).flatMap tree.preorder <+~
      tree.preorder candidate.chain.action ++
        (foldedInto ending.fold).flatMap fun d => (tree.parts d).flatMap tree.preorder := by
  cases h with
  | @performed function action function_runs =>
    -- one function keeps one part of the action at most
    have hsub := flatMap_preorder_sublist function_runs.length_le hg function_runs.reaches
    simpa [tail, foldedInto, Terminal.kept] using hsub.subperm
  | @gathered accumulation mapper terminal fold action found mapper_maps gathers =>
    have hcall := found.reaches_call
    have hgcall := hg.of_reaches hcall
    have hgvalue := hgcall.of_mem_parts (c := accumulation.value) (by simp [found.parts_call])
    have hmapper := flatMap_preorder_sublist mapper_maps.length_le hgvalue
      mapper_maps.reaches
    -- the value comes last in the call that adds
    have hparts : accumulation.qualifier.toList.flatMap tree.preorder ++
        tree.preorder accumulation.value <+ tree.preorder candidate.chain.action := by
      refine List.Sublist.trans ?_ (hg.preorder_sublist hcall)
      rw [hgcall.preorder_eq, found.parts_call, List.flatMap_append, List.flatMap_singleton]
      exact List.sublist_cons_self _ _
    rw [tail, List.flatMap_append]
    cases gathers with
    | appended =>
      simp only [Terminal.kept, foldedInto, Option.toList_none, List.map_nil, List.flatMap_nil,
        List.append_nil]
      exact List.perm_append_comm.subperm.trans ((hmapper.append_left _).trans hparts).subperm
    | @folded var collector fold target site =>
      cases site with
      | @declared up declaration init left right type target up_attached block here creation =>
        -- a supplier is the initial value of the declaration
        have hinit : (collectorFor type init).kept.flatMap tree.preorder <+
            (tree.parts declaration).flatMap tree.preorder := by
          rw [Tree.parts_eq_children here]
          unfold collectorFor
          split
          · simp [Collector.kept]
          · split
            · simp [Collector.kept]
            · exact List.Sublist.refl _
        have haction := hmapper.trans ((List.sublist_append_right _ _).trans hparts)
        simpa [Terminal.kept, foldedInto] using (haction.append hinit).subperm

/-- What is kept of the action has no landmarks in it or keeps them. -/
theorem Ends.tail_comments (h : Ends analyzer tree candidate ending)
    (hg : tree.Grounded candidate.chain.action) :
    ∀ t ∈ tail ending.mapper ending.terminal,
      tree.Unmarked t ∨ ∃ part ∈ ending.kept, tree.Reaches part t := by
  intro t ht
  cases h with
  | @performed function action function_runs =>
    -- a reference has no comments in it, and a literal keeps the whole action
    replace ht : t ∈ function.kept := by simpa [tail, Terminal.kept] using ht
    have hreach := function_runs.reaches t ht
    cases hreference : function.isMethodRef with
    | true => exact .inl ((function_runs.unmarked hg hreference).of_reaches hreach)
    | false => exact .inr ⟨candidate.chain.action, by simp, hreach⟩
  | @gathered accumulation mapper terminal fold action found mapper_maps gathers =>
    have hgcall := hg.of_reaches found.reaches_call
    rcases List.mem_append.1 ht with ht | ht
    · -- what a mapping links is in the value, which is kept
      have hgvalue := hgcall.of_mem_parts (c := accumulation.value) (by simp [found.parts_call])
      exact .inr ⟨accumulation.value, by simp, mapper_maps.reaches t ht⟩
    · cases gathers with
      | appended =>
        -- a receiver is a path, and nobody writes a comment in there
        have hq : accumulation.qualifier = some t := Option.mem_toList.1 ht
        exact .inl (found.unmarked hq (hgcall.of_mem_parts (by simp [found.parts_call, hq])))
      | @folded var collector fold target site =>
        cases site with
        | @declared up declaration init left right type target up_attached block here creation =>
          -- a supplier is the creation of an empty collection
          obtain rfl := eq_of_mem_kept_collectorFor ht
          exact .inl (.expr creation rfl (by simp [Expr.children]))

/-! ### The salvage -/

/-- A loop is only folded into a declaration that it adds to the variable of, and then its elements
are collected. -/
theorem Ends.exists_site (h : Ends analyzer tree candidate ending) {fold : Fold}
    (hfold : ending.fold = some fold) :
    ∃ accumulation var collector, candidate.action = .accumulate accumulation ∧
      accumulation.target = .variable var ∧ ending.terminal = .collect collector ∧
      FoldSite tree candidate.loop var collector fold := by
  cases h with
  | performed action function_runs => cases hfold
  | gathered action found mapper_maps gathers =>
    cases gathers with
    | appended => cases hfold
    | folded target site =>
      obtain rfl := Option.some.inj hfold
      exact ⟨_, _, _, action, target, rfl, site⟩

/-- **A loop is folded into the declaration in front of it**, which declares the variable that is
added to, with the creation of a collection. -/
theorem Ends.exists_place (h : Ends analyzer tree candidate ending) {fold : Fold}
    (hfold : ending.fold = some fold) :
    ∃ accumulation up var left right type target, candidate.action = .accumulate accumulation ∧
      accumulation.target = .variable var ∧
      tree.DeclaredInFront up fold.declaration fold.initializer candidate.loop var left right ∧
      tree.kind? fold.initializer = some (.expr (.create ⟨type, [], target⟩)) := by
  obtain ⟨accumulation, var, collector, haction, htarget, -, hsite⟩ := h.exists_site hfold
  cases hsite with
  | declared up_attached block here creation =>
    exact ⟨accumulation, _, var, _, _, _, _, haction, htarget, ⟨up_attached, block, here⟩, creation⟩

theorem mem_foldedInto {fold : Option Fold} {d : NodeId} :
    d ∈ foldedInto fold ↔ ∃ f, fold = some f ∧ f.declaration = d := by
  simp [foldedInto]

/-- What a loop is folded into hangs in the tree. -/
theorem Ends.foldedInto_attached (h : Ends analyzer tree candidate ending) :
    ∀ d ∈ foldedInto ending.fold, tree.Attached d := by
  intro d hd
  obtain ⟨fold, hfold, rfl⟩ := mem_foldedInto.1 hd
  obtain ⟨-, _, _, _, _, _, _, -, -, hplace, -⟩ := h.exists_place hfold
  exact hplace.declaration_attached

/-- What a plan keeps hangs in the tree. -/
theorem Follows.kept_attached (hwf : tree.WellFormed) (hloop : tree.Attached loop)
    (hfound : Candidate.Found analyzer tree loop candidate)
    (hends : Ends analyzer tree candidate ending) (h : Follows tree candidate ending plan) :
    ∀ c ∈ plan.kept, tree.Attached c := by
  have haction := hfound.action_attached hwf hloop
  intro c hc
  rw [h.kept_eq] at hc
  simp only [List.cons_append, List.mem_cons, List.mem_append] at hc
  rcases hc with rfl | hc | hc
  · exact hfound.source_attached hloop
  · exact hfound.condition_attached hwf hloop hc
  · -- what the end of the plan keeps is below the action or below the declaration
    have hmem := (hends.tail_subperm (hwf.grounded haction)).subset
      (mem_flatMap_preorder.2 ⟨c, hc, .refl c⟩)
    rcases List.mem_append.1 hmem with hmem | hmem
    · exact haction.reaches (mem_preorder_iff.1 hmem)
    · obtain ⟨d, hd, hmem⟩ := List.mem_flatMap.1 hmem
      obtain ⟨p, hp, hpc⟩ := mem_flatMap_preorder.1 hmem
      exact ((hends.foldedInto_attached d hd).of_mem hp).reaches hpc

/-- What stands below the statements that are given up: the rest of the declaration, the source and
the body. -/
def belowGiven (tree : Tree) (candidate : Candidate) (ending : Ending) : List NodeId :=
  (foldedInto ending.fold).flatMap (fun d => (tree.parts d).flatMap tree.preorder) ++
    (tree.preorder candidate.source ++ tree.preorder candidate.body)

theorem perm_belowGiven (hwf : tree.WellFormed) (hloop : tree.Attached loop)
    (hfound : Candidate.Found analyzer tree loop candidate)
    (hends : Ends analyzer tree candidate ending) :
    (foldedInto ending.fold ++ [loop]).flatMap tree.preorder ~
      (foldedInto ending.fold ++ [loop]) ++ belowGiven tree candidate ending := by
  have hgrounded : ∀ m ∈ foldedInto ending.fold ++ [loop], tree.Grounded m := by
    intro m hm
    rcases List.mem_append.1 hm with hm | hm
    · exact hwf.grounded (hends.foldedInto_attached m hm)
    · exact List.mem_singleton.1 hm ▸ hwf.grounded hloop
  -- each of what is given up comes in front of what is below its parts
  calc (foldedInto ending.fold ++ [loop]).flatMap tree.preorder
      _ ~ (foldedInto ending.fold ++ [loop]).flatMap
          fun m => m :: (tree.parts m).flatMap tree.preorder :=
        List.Perm.flatMap_left _ fun m hm => .of_eq (hgrounded m hm).preorder_eq
      _ ~ (foldedInto ending.fold ++ [loop]).map id ++ (foldedInto ending.fold ++ [loop]).flatMap
          fun m => (tree.parts m).flatMap tree.preorder :=
        (List.map_append_flatMap_perm _ _ _).symm
      _ ~ _ := by simp [hfound.parts_eq, belowGiven]

/-- What is kept stands there side by side. -/
theorem Follows.kept_subperm (hwf : tree.WellFormed) (hloop : tree.Attached loop)
    (hfound : Candidate.Found analyzer tree loop candidate)
    (hends : Ends analyzer tree candidate ending) (h : Follows tree candidate ending plan) :
    plan.kept.flatMap tree.preorder <+~ belowGiven tree candidate ending := by
  have hgbody := hwf.grounded (hfound.body_attached hloop)
  have htail := hends.tail_subperm (hwf.grounded (hfound.action_attached hwf hloop))
  -- conditions and action are side by side in the body, and the source is beside it
  have hchain := ((hfound.guarded hwf hloop).sublist hgbody).subperm
  rw [h.kept_eq, belowGiven]
  simp only [List.cons_append, List.flatMap_cons, List.flatMap_append]
  refine List.Subperm.trans ?_ List.perm_append_comm.subperm
  rw [List.append_assoc]
  refine (List.subperm_append_left _).2 (((List.subperm_append_left _).2 htail).trans ?_)
  rw [← List.append_assoc]
  exact (List.subperm_append_right _).2 hchain

/-- Comments that are saved stand in the body, but in nothing that is kept. -/
theorem Follows.comment_notMem (hwf : tree.WellFormed) (hloop : tree.Attached loop)
    (hfound : Candidate.Found analyzer tree loop candidate)
    (hends : Ends analyzer tree candidate ending) (h : Follows tree candidate ending plan)
    (hnodup : (belowGiven tree candidate ending).Nodup) {c : NodeId} (hc : c ∈ plan.comments) :
    c ∉ plan.kept.flatMap tree.preorder := by
  intro hin
  obtain ⟨hreach, hsome, hlost⟩ := mem_savedComments.1 (h.comments_eq ▸ hc)
  obtain ⟨k, hk, hkc⟩ := mem_flatMap_preorder.1 hin
  rw [h.kept_eq] at hk
  simp only [List.cons_append, List.mem_cons, List.mem_append] at hk
  rcases hk with rfl | hk | hk
  · -- the source stands beside the body
    obtain ⟨-, hboth, -⟩ := List.nodup_append'.1 hnodup
    exact (List.nodup_append'.1 hboth).2.2 (mem_preorder_iff.2 hkc) (mem_preorder_iff.2 hreach)
  · exact hlost k (List.mem_append_left _ hk) hkc
  · have hgaction := hwf.grounded (hfound.action_attached hwf hloop)
    rcases hends.tail_comments hgaction k hk with hfree | ⟨part, hpart, hpk⟩
    · simp [hfree.comment?_eq_none hkc] at hsome
    · exact hlost part (List.mem_append_right _ hpart) (hpk.trans hkc)

/-- **What a plan keeps of what it gives up**: the loop, and the rest of the declaration that the
loop is folded into. -/
theorem Follows.salvage_of (hwf : tree.WellFormed) (hloop : tree.Attached loop)
    (hfound : Candidate.Found analyzer tree loop candidate)
    (hends : Ends analyzer tree candidate ending) (h : Follows tree candidate ending plan)
    (hapart : ((foldedInto ending.fold ++ [loop]).flatMap tree.preorder).Nodup) :
    Salvage tree (foldedInto ending.fold ++ [loop]) plan.kept plan.comments := by
  have hbody := hfound.body_attached hloop
  have hlist := perm_belowGiven hwf hloop hfound hends
  obtain ⟨-, hbelow, houtside⟩ := List.nodup_append'.1 (hlist.nodup_iff.1 hapart)
  obtain ⟨listed, hlisted, hsub⟩ := h.kept_subperm hwf hloop hfound hends
  -- a comment that is saved is one of the body
  have hcomment : ∀ c ∈ plan.comments, tree.Reaches candidate.body c ∧ (tree.comment? c).isSome :=
    fun c hc => ⟨(mem_savedComments.1 (h.comments_eq ▸ hc)).1,
      (mem_savedComments.1 (h.comments_eq ▸ hc)).2.1⟩
  -- all that is saved or kept is below what is given up
  have hmem : ∀ n ∈ plan.comments ++ plan.kept.flatMap tree.preorder,
      n ∈ belowGiven tree candidate ending := by
    intro n hn
    rcases List.mem_append.1 hn with hn | hn
    · simp [belowGiven, mem_preorder_iff.2 (hcomment n hn).1]
    · exact hsub.subset (hlisted.symm.subset hn)
  -- and is in the tree
  have hattached : ∀ n ∈ plan.kept.flatMap tree.preorder, tree.Attached n := by
    intro n hn
    obtain ⟨c, hc, hcn⟩ := mem_flatMap_preorder.1 hn
    exact (h.kept_attached hwf hloop hfound hends c hc).reaches hcn
  refine {
    grounded := fun c hc => hwf.grounded (hattached c (mem_flatMap_preorder.2 ⟨c, hc, .refl c⟩))
    nodup := List.nodup_append'.2 ⟨?_, hlisted.nodup_iff.1 (hsub.nodup hbelow), fun c hc =>
      h.comment_notMem hwf hloop hfound hends hbelow hc⟩
    below := fun n hn _ => hlist.symm.subset (List.mem_append_right _ (hmem n hn))
    outside := fun n hn hmid => houtside hmid (hmem n hn)
    fits := fun n hn kind hkind => hwf.fits n kind (hattached n hn) hkind
    comments := fun c hc => ⟨hbody.reaches (hcomment c hc).1, ?_⟩ }
  · exact (h.comments_eq ▸ savedComments_sublist).nodup (hwf.nodup_preorder hbody)
  · obtain ⟨text, htext⟩ := Option.isSome_iff_exists.1 (hcomment c hc).2
    exact ⟨text, Tree.comment?_eq_some.1 htext⟩

end Pipeline

end LoopToStream
