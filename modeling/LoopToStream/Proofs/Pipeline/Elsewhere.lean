import LoopToStream.Proofs.Loop.Elsewhere
import LoopToStream.Proofs.Pipeline.Kept
import LoopToStream.Proofs.Pipeline.Spelling

/-!
# Planning beside a change

A loop that a change elsewhere leaves alone becomes the same pipeline afterwards, if there is the
same declaration in front of it to fold it into, or none: the pipeline ends in the same way
(`Undisturbed.endingOf_eq`), the same comments are saved (`Undisturbed.savedComments_eq`), and it is
written the same (`Undisturbed.whole_eq`). What is written depends on the tree by the texts of the
parts that the pipeline links, and by little else (`Spelling.statement_congr`).
-/

namespace LoopToStream

open LoopToStream.Tree (mem_preorder_iff)
open Pipeline (chainParts linkedParts foldedInto savedComments)

/-! ### What is written -/

namespace Spelling

variable {tree next : Tree} {style : CollectorStyle} {candidate : Candidate}
    {ending : Pipeline.Ending}

theorem body_congr {b : LambdaBody} (htext : next.text b.node = tree.text b.node) :
    body next b = body tree b := by
  cases b with
  | expr id => exact htext
  | block id => exact htext
  | wrapped id =>
    rw [LambdaBody.node] at htext
    rw [body, body, htext]

theorem collector_congr {c : Collector} (htext : ∀ part ∈ c.kept, next.text part = tree.text part) :
    collector next style c = collector tree style c := by
  cases c with
  | custom supplier => rw [collector, collector, htext supplier (by simp [Collector.kept])]
  | _ => rfl

theorem callOn_congr {method argument : String} {receiver : Option NodeId}
    (htext : ∀ q ∈ receiver.toList, next.text q = tree.text q) :
    callOn next method argument receiver = callOn tree method argument receiver := by
  cases receiver with
  | none => rfl
  | some q => rw [callOn, callOn, htext q (by simp)]

variable (hvars : next.vars = tree.vars)
include hvars

theorem function_congr {f : StageFunction}
    (htext : ∀ part ∈ f.kept, next.text part = tree.text part) :
    function next f = function tree f := by
  have hvar : next.var = tree.var := funext fun v => by rw [Tree.var, Tree.var, hvars]
  cases f with
  | methodRef q method =>
    have hq : qualifier next q = qualifier tree q := by
      cases q with
      | expr id => exact htext id (by simp [StageFunction.kept, Qualifier.kept])
      | _ => rfl
    rw [function, function, hq]
  | lambda param b =>
    rw [function, function, hvar, body_congr (htext b.node (by simp [StageFunction.kept]))]

theorem chain_congr (hsource : tree.SameBelow next candidate.source)
    (htext : ∀ part ∈ chainParts candidate ending, next.text part = tree.text part) :
    chain next candidate ending.mapper = chain tree candidate ending.mapper := by
  have hvar : next.var = tree.var := funext fun v => by rw [Tree.var, Tree.var, hvars]
  -- the source is written by its text, in parentheses or not as its form asks for
  have hcollection : source next candidate.source = source tree candidate.source := by
    rw [source, source, htext candidate.source (by simp [chainParts]), hsource.expr?_eq]
  have hmapper : ∀ mapper ∈ ending.mapper, function next mapper = function tree mapper := by
    intro mapper hmapper
    exact function_congr hvars fun part hpart =>
      htext part (by simp [chainParts, Option.mem_def.1 hmapper, hpart])
  rw [chain, chain, hcollection, hvar]
  refine bind_congr_of_ok fun collection _ => bind_congr_of_ok fun param _ => ?_
  -- the filters are folded over in order, each written by its text
  rw [foldlM_congr_of_mem fun cond hcond text => by
    rw [htext cond (by simp [chainParts, hcond])]]
  refine bind_congr_of_ok fun filtered _ => ?_
  cases hm : ending.mapper with
  | none => rfl
  | some mapper =>
    dsimp only
    rw [hmapper mapper hm]

/-- **What a pipeline is written as** is put together from the texts of the parts that it links and
of the action. -/
theorem statement_congr {typed : Bool} (hsource : tree.SameBelow next candidate.source)
    (haction : tree.SameBelow next candidate.chain.action)
    (hdeclaration : ∀ d ∈ foldedInto ending.fold, tree.SameBelow next d)
    (htext : ∀ part ∈ candidate.chain.action :: linkedParts candidate ending,
      next.text part = tree.text part) :
    statement next style candidate ending typed = statement tree style candidate ending typed := by
  have hvar : next.var = tree.var := funext fun v => by rw [Tree.var, Tree.var, hvars]
  have hchain : chain next candidate ending.mapper = chain tree candidate ending.mapper :=
    chain_congr hvars hsource fun part hpart => htext part (by
      simp only [chainParts, linkedParts, Pipeline.tail, List.mem_cons, List.mem_append,
        List.cons_append] at hpart ⊢
      tauto)
  have hterminal : ∀ part ∈ ending.terminal.kept, next.text part = tree.text part :=
    fun part hpart =>
    htext part (by simp [linkedParts, Pipeline.tail, hpart])
  -- a literal with types is written by the text of the action
  have htyped : typedFunction next candidate.param candidate.chain.action =
      typedFunction tree candidate.param candidate.chain.action := by
    rw [typedFunction, typedFunction, hvar, haction.isBlock_eq, body_congr]
    split <;> exact htext _ (by simp [LambdaBody.node])
  rw [statement, statement, hchain]
  refine bind_congr_of_ok fun text _ => ?_
  cases hend : ending.terminal with
  | forEach f =>
    rw [hend] at hterminal
    dsimp only
    rw [htyped, function_congr hvars hterminal]
  | collect c =>
    rw [hend] at hterminal
    cases hfold : ending.fold with
    | none =>
      dsimp only
      rw [collector_congr hterminal]
    | some fold =>
      -- a declaration is written by its variable, which it keeps
      have hd := hdeclaration fold.declaration (by simp [foldedInto, hfold])
      dsimp only
      rw [collector_congr hterminal]
      refine bind_congr_of_ok fun collected _ => ?_
      rw [declaration, declaration, hd.stmt?_eq, hvar]
  | addAll receiver =>
    rw [hend] at hterminal
    dsimp only
    refine bind_congr_of_ok fun collected _ => ?_
    rw [callOn_congr hterminal]

end Spelling

/-! ### What is planned -/

variable {tree next : Tree} {hidden : VarId} {loop n action : NodeId} {analyzer : Analyzer}
  {candidate : Candidate} {ending : Pipeline.Ending} {style : CollectorStyle}

namespace Tree.Undisturbed

variable (h : tree.Undisturbed next hidden loop)
include h

theorem text_eq (hn : tree.Reaches loop n) : next.text n = tree.text n :=
  (h.sameBelow hn).text_eq (h.grounded hn) h.vars_eq

theorem mapperOf_eq (hfinal : tree.SameFinality next analyzer.flow hidden loop) (options : Options)
    (param : VarId) (hn : tree.Reaches loop n) :
    Pipeline.mapperOf analyzer options next param n =
      Pipeline.mapperOf analyzer options tree param n := by
  rw [Pipeline.mapperOf, Pipeline.mapperOf, h.isParam_eq param hn, h.reduce?_eq hfinal param hn]

theorem actionFunction_eq (hfinal : tree.SameFinality next analyzer.flow hidden loop)
    (options : Options) (param : VarId) (hn : tree.Reaches loop n) :
    Pipeline.actionFunction analyzer options next param n =
      Pipeline.actionFunction analyzer options tree param n := by
  have hbody : Pipeline.lambdaBodyOf next n = Pipeline.lambdaBodyOf tree n := by
    unfold Pipeline.lambdaBodyOf
    rw [(h.sameBelow hn).stmt?_eq]
  rw [Pipeline.actionFunction, Pipeline.actionFunction, h.reduceAction?_eq hfinal param hn, hbody]

variable (hfound : Candidate.Found analyzer tree loop candidate)
include hfound

theorem reaches_action : tree.StrictlyReaches loop candidate.chain.action := by
  have hbody : candidate.body ∈ tree.parts loop := by simp [hfound.parts_eq]
  exact strictlyReaches_iff.2 ⟨_, hbody, (hfound.guarded h.before h.was_attached).reaches_action⟩

/-- **The pipeline ends in the same way**, if what it could be folded into is the same. -/
theorem endingOf_eq (hfinal : tree.SameFinality next analyzer.flow hidden loop) (options : Options)
    (hsite : ∀ v, Pipeline.foldSite? next loop v = Pipeline.foldSite? tree loop v) :
    Pipeline.endingOf analyzer options next candidate =
      Pipeline.endingOf analyzer options tree candidate := by
  have hreach := (h.reaches_action hfound).reaches
  have hvar : next.var = tree.var := funext h.var_eq
  rw [Pipeline.endingOf, Pipeline.endingOf]
  cases haction : candidate.action with
  | perform stmt =>
    -- the function is made of the action
    obtain rfl := LoopAction.perform_eq (haction ▸ hfound.action_eq)
    simp only [h.actionFunction_eq hfinal options _ hreach]
  | accumulate accumulation =>
    -- the value is mapped, and the collection decides how it is gathered
    have hadds := LoopAction.found_of_eq_ok (haction ▸ hfound.action_eq)
    have hcall := hreach.trans hadds.reaches_call
    have hvalue := hcall.tail (c := accumulation.value) (by simp [hadds.parts_call])
    have hgathering : Pipeline.gathering next candidate.loop accumulation =
        Pipeline.gathering tree candidate.loop accumulation := by
      rw [hfound.loop_eq]
      unfold Pipeline.gathering
      simp only [hvar, hsite]
    obtain ⟨resolved, hkind⟩ := hadds.call
    simp [(h.sameBelow hcall).call?_eq, hkind, h.mapperOf_eq hfinal options _ hvalue, hgathering]

/-- What the pipeline keeps of the loop is in it. -/
theorem reaches_kept (hends : Pipeline.Ends analyzer tree candidate ending) :
    ∀ part ∈ candidate.chain.conditions ++ ending.kept, tree.Reaches loop part := by
  have hbody : tree.Reaches loop candidate.body := .of_mem (by simp [hfound.parts_eq])
  intro part hpart
  rcases List.mem_append.1 hpart with hpart | hpart
  · exact hbody.trans ((hfound.guarded h.before h.was_attached).reaches_condition hpart).reaches
  · exact (h.reaches_action hfound).reaches.trans (hends.reaches_kept part hpart)

/-- **The same comments are saved.** -/
theorem savedComments_eq (hends : Pipeline.Ends analyzer tree candidate ending) :
    savedComments next candidate ending = savedComments tree candidate ending := by
  have hbody : tree.Reaches loop candidate.body := .of_mem (by simp [hfound.parts_eq])
  have hcomments : (tree.preorder candidate.body).filter (fun m => (next.comment? m).isSome) =
      (tree.preorder candidate.body).filter fun m => (tree.comment? m).isSome :=
    List.filter_congr fun m hm => by
      rw [(h.sameBelow (hbody.trans (mem_preorder_iff.1 hm))).comment?_eq]
  -- a comment is not saved if it is in a part that is kept, and those are in the loop
  have hany : ∀ (m : NodeId) (parts : List NodeId), (∀ part ∈ parts, tree.Reaches loop part) →
      (parts.any fun part => (next.preorder part).contains m) =
        parts.any fun part => (tree.preorder part).contains m := by
    intro m parts hparts
    induction parts with
    | nil => rfl
    | cons part parts ih =>
      have hpart := hparts part (by simp)
      rw [List.any_cons, List.any_cons, (h.sameBelow hpart).preorder_eq (h.grounded hpart),
        ih fun p hp => hparts p (by simp [hp])]
  rw [savedComments, savedComments, (h.sameBelow hbody).preorder_eq (h.grounded hbody), hcomments]
  refine List.filter_congr fun m _ => ?_
  rw [hany m _ (h.reaches_kept hfound hends)]

/-- **The pipeline is written the same.** -/
theorem whole_eq {typed : Bool} (hends : Pipeline.Ends analyzer tree candidate ending)
    (hdeclaration : ∀ d ∈ foldedInto ending.fold, tree.SameBelow next d)
    (hroom : (tree.parent? loop).any next.isBlock = (tree.parent? loop).any tree.isBlock) :
    Spelling.whole next style candidate ending typed =
      Spelling.whole tree style candidate ending typed := by
  have haction := (h.reaches_action hfound).reaches
  have hsource : tree.Reaches loop candidate.source := .of_mem (by simp [hfound.parts_eq])
  have hgaction := h.grounded haction
  -- what is linked is in the loop, or in the declaration that it is folded into
  have htext : ∀ part ∈ candidate.chain.action :: linkedParts candidate ending,
      next.text part = tree.text part := by
    intro part hpart
    simp only [linkedParts, List.cons_append, List.mem_cons, List.mem_append] at hpart
    rcases hpart with rfl | rfl | hpart | hpart
    · exact h.text_eq haction
    · exact h.text_eq hsource
    · exact h.text_eq (h.reaches_kept hfound hends part (by simp [hpart]))
    · have hmem := (hends.tail_subperm hgaction).subset
        (List.mem_flatMap.2 ⟨part, hpart, mem_preorder_iff.2 (.refl part)⟩)
      rcases List.mem_append.1 hmem with hmem | hmem
      · exact h.text_eq (haction.trans (mem_preorder_iff.1 hmem))
      · obtain ⟨d, hd, hmem⟩ := List.mem_flatMap.1 hmem
        obtain ⟨c, hc, hmem⟩ := List.mem_flatMap.1 hmem
        have hreach := (Reaches.of_mem hc).trans (mem_preorder_iff.1 hmem)
        exact ((hdeclaration d hd).of_reaches hreach).text_eq
          ((h.before.grounded (hends.foldedInto_attached d hd)).of_reaches hreach) h.vars_eq
  -- so the statement is written the same, and comments in front of it are as before
  have hstatement : Spelling.statement next style candidate ending typed =
      Spelling.statement tree style candidate ending typed :=
    Spelling.statement_congr h.vars_eq (h.sameBelow hsource) (h.sameBelow haction)
      hdeclaration htext
  have hcomments := h.savedComments_eq hfound hends
  have hlt := h.lt_size (.refl loop)
  rw [Spelling.whole, Spelling.whole, hstatement, hcomments, hfound.loop_eq, isInBlock_eq hlt,
    isInBlock_eq (hlt.trans_le h.size_le), h.parents loop h.was_attached (.refl loop), hroom]
  refine bind_congr_of_ok fun text _ => ?_
  split
  · rfl
  · rw [ok_bind, ok_bind, Spelling.replacement, Spelling.replacement]
    have hbody : tree.Reaches loop candidate.body := .of_mem (by simp [hfound.parts_eq])
    rw [mapM_congr_of_mem fun c hc =>
      h.text_eq (hbody.trans (mem_preorder_iff.1 (Pipeline.savedComments_sublist.subset hc)))]

end Tree.Undisturbed

end LoopToStream
