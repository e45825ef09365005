import LoopToStream.Proofs.Pipeline.Installing

/-!
# Where the landmarks of a loop are afterwards

A pipeline refers to a few parts of a loop. This file shows that nothing else in the loop is a
landmark, except for the loop itself and for the comments that are saved, and follows the comments
and the loops of the whole tree through the change.

* `Tree.Guarded.filter_landmarks` — around the conditions and the action of a body there are
  comments only.
* `Pipeline.Ends.landmarks_tail` — the mapping and the end of a pipeline keep the landmarks of the
  action.
* `Pipeline.Planned.filter_landmarks` — the two put together, for the loop.
* `Pipeline.Planned.comments`, `Pipeline.Planned.loops` — the comments and the loops of the tree
  before and after.
-/

namespace LoopToStream

open scoped List
open LoopToStream.Tree (mem_preorder_iff mem_flatMap_preorder)

/-! ### Around the conditions and the action -/

namespace Tree

variable {tree : Tree} {id inner action : NodeId} {conds : List NodeId}

/-- The comments beside the only statement of a block are in no part that is kept. -/
theorem Guarded.filter_beside (below : tree.Guarded inner conds action) (keep : NodeId → Bool)
    (hwf : tree.WellFormed) (hid : tree.Attached id) (only : tree.onlyStatement? id = some inner)
    (hlost : ∀ n, tree.Reaches id n → (tree.comment? n).isSome →
      (∀ part ∈ action :: conds, ¬ tree.Reaches part n) → keep n = false)
    (beside : List NodeId) (hbeside : beside ⊆ tree.parts id) (hout : inner ∉ beside) :
    (beside.flatMap tree.landmarks).filter (fun mark => keep mark.1) = [] := by
  rw [List.filter_eq_nil_iff]
  intro mark hmark
  obtain ⟨c, hc, hmark⟩ := List.mem_flatMap.1 hmark
  have hne : c ≠ inner := ne_of_mem_of_not_mem hc hout
  obtain ⟨text, htext⟩ := comment_of_onlyStatement? hwf hid only (hbeside hc) hne
  obtain ⟨hreach, -⟩ := reaches_of_mem_landmarks hmark
  -- nothing is below a comment but the comment
  have heq : mark.1 = c := by
    rcases reaches_iff.1 hreach with heq | ⟨d, hd, -⟩
    · exact heq.symm
    · simp [parts_eq_children htext, Kind.children] at hd
  rw [heq, hlost c (.of_mem (hbeside hc)) (by simp [comment?_eq_some.2 htext])]
  · simp
  · intro part hpart hbelow
    -- what is kept is below the only statement, and so not below its sibling
    have hpart : tree.Reaches inner part := by
      rcases List.mem_cons.1 hpart with rfl | hpart
      · exact below.reaches_action
      · exact (below.reaches_condition hpart).reaches
    exact hwf.linkedOnce.siblings_disjoint hid (hbeside hc) (mem_parts_of_onlyStatement? only) hne
      (.refl c) (hpart.trans hbelow)

/-- **Around the conditions and the action there are comments only.** A test that is passed by the
landmarks of the conditions and of the action, and by no other comment, leaves exactly those
landmarks. By induction on what is taken off: a block has comments beside its only statement, and a
guard has its condition in front of its branch. -/
theorem Guarded.filter_landmarks (h : tree.Guarded id conds action) (keep : NodeId → Bool)
    (hwf : tree.WellFormed) (hid : tree.Attached id)
    (hkept : ∀ mark ∈ conds.flatMap tree.landmarks ++ tree.landmarks action, keep mark.1 = true)
    (hlost : ∀ n, tree.Reaches id n → (tree.comment? n).isSome →
      (∀ part ∈ action :: conds, ¬ tree.Reaches part n) → keep n = false) :
    (tree.landmarks id).filter (fun mark => keep mark.1) =
      conds.flatMap tree.landmarks ++ tree.landmarks action := by
  induction h with
  | @wrapped id inner conds action only below ih =>
    obtain ⟨stmts, hkind, -⟩ := onlyStatement?_eq_some only
    have hmem := mem_parts_of_onlyStatement? only
    -- left and right of the only statement everything is lost
    have hinner := ih (hid.of_mem hmem) hkept fun n hn => hlost n (hn.head hmem)
    obtain ⟨left, right, hsplit⟩ := List.append_of_mem hmem
    obtain ⟨hnotLeft, hnotRight⟩ := hwf.linkedOnce.notMem_beside hid hsplit
    have hleft := below.filter_beside keep hwf hid only hlost left (by simp [hsplit]) hnotLeft
    have hright := below.filter_beside keep hwf hid only hlost right (by simp [hsplit]) hnotRight
    have hmark : tree.mark? id = none := by
      rw [mark?_eq_of_kind? hkind]
      rfl
    rw [(hwf.grounded hid).landmarks_eq, hmark, hsplit]
    simp only [Option.toList_none, List.nil_append, List.flatMap_append, List.flatMap_cons,
      List.filter_append]
    rw [hleft, hright, hinner]
    simp
  | @guard id cond branch conds action guard below ih =>
    have hparts := parts_of_guard? guard
    have hmark : tree.mark? id = none := by
      rw [mark?_eq_of_kind? (guard?_eq_some guard)]
      rfl
    -- the two parts of a guard are not the same node
    have hne : cond ≠ branch := by
      have honce := hwf.linkedOnce.once id hid
      rw [hparts] at honce
      rintro rfl
      simp at honce
    have hbranch := ih (hid.of_mem (by simp [hparts]))
      (fun mark hmem => hkept mark (by simpa using .inr (by simpa using hmem)))
      fun n hn hcomment hout => by
        refine hlost n (hn.head (by simp [hparts])) hcomment fun part hpart => ?_
        -- what is below the branch is not below the condition
        rcases List.mem_cons.1 hpart with rfl | hpart
        · exact hout _ (by simp)
        rcases List.mem_cons.1 hpart with rfl | hpart
        · exact hwf.linkedOnce.siblings_disjoint hid (by simp [hparts]) (by simp [hparts])
            hne.symm hn
        · exact hout part (by simp [hpart])
    have hcond : (tree.landmarks cond).filter (fun mark => keep mark.1) = tree.landmarks cond :=
      List.filter_eq_self.2 fun mark hmem => hkept mark (by simp [hmem])
    rw [(hwf.grounded hid).landmarks_eq, hmark, hparts]
    simp [hcond, hbranch]
  | bare =>
    rw [List.flatMap_nil, List.nil_append] at hkept ⊢
    exact List.filter_eq_self.2 hkept

end Tree

namespace Pipeline

variable {analyzer : Analyzer} {tree next : Tree} {param : VarId} {value : NodeId}
  {candidate : Candidate} {ending : Ending} {plan : Pipeline} {mapper : Option StageFunction}
  {style : CollectorStyle} {typed : Bool} {replacement : NodeId}

/-! ### What the pipeline keeps of the action -/

theorem landmarks_of_isParam (hg : tree.Grounded value)
    (h : Forwarding.isParam tree param value = true) : tree.landmarks value = [] :=
  (Forwarding.unmarked_of_isParam hg h).landmarks_eq

/-- **No landmark of the value is lost** by writing it as a function. -/
theorem Maps.landmarks_eq (h : Maps analyzer tree param value mapper) (hg : tree.Grounded value) :
    (mapper.toList.flatMap StageFunction.kept).flatMap tree.landmarks = tree.landmarks value := by
  cases h with
  | element is_param => rw [landmarks_of_isParam hg is_param]; rfl
  | literal not_param => simp [StageFunction.kept, LambdaBody.node]
  | @reference qualifier method not_param answer form =>
    have hmaps : Maps analyzer tree param value _ := .reference not_param answer form
    have hunmarked : tree.Unmarked value :=
      .of_skipParens hg (form.unmarked (hg.of_reaches (tree.reaches_skipParens _)))
    rw [hunmarked.landmarks_eq, List.flatMap_eq_nil_iff]
    exact fun t ht => (hunmarked.of_reaches (hmaps.reaches t ht)).landmarks_eq

/-- An action that adds a value has the landmarks of the value. -/
theorem landmarks_of_found {action : NodeId} {accumulation : Accumulation}
    (h : Accumulation.Found tree action accumulation) (hg : tree.Grounded action) :
    tree.landmarks action = tree.landmarks accumulation.value := by
  obtain ⟨outer, houter, hcall⟩ := h.statement
  obtain ⟨target, hkind⟩ := h.call
  have hout : outer ∈ tree.parts action := by
    simp [Tree.parts_eq_children (Tree.stmt?_eq_some.1 houter), Kind.children, Stmt.children]
  have hgouter := hg.of_mem_parts hout
  have hgcall : tree.Grounded accumulation.call :=
    hcall ▸ hgouter.of_reaches (tree.reaches_skipParens _)
  -- a receiver is a path, and has no landmarks
  have hqualifier : accumulation.qualifier.toList.flatMap tree.landmarks = [] := by
    refine List.flatMap_eq_nil_iff.2 fun q hq => ?_
    have hq' := Option.mem_toList.1 hq
    exact (h.unmarked hq' (hgcall.of_mem_parts (by simp [h.parts_call, hq']))).landmarks_eq
  calc tree.landmarks action
      _ = tree.landmarks outer := landmarks_exprStmt hg (Tree.stmt?_eq_some.1 houter)
      _ = tree.landmarks accumulation.call := by rw [hgouter.landmarks_skipParens, hcall]
      _ = tree.landmarks accumulation.value := by
        rw [hgcall.landmarks_eq, h.parts_call, Tree.mark?_eq_of_kind? (Tree.call?_eq_some.1 hkind),
          List.flatMap_append, hqualifier]
        simp [Kind.mark?, Kind.isLandmark]

/-- **The landmarks of the action are kept**, whichever way the pipeline ends. -/
theorem Ends.landmarks_tail (h : Ends analyzer tree candidate ending)
    (hg : tree.Grounded candidate.chain.action) :
    (tail ending.mapper ending.terminal).flatMap tree.landmarks =
      tree.landmarks candidate.chain.action := by
  cases h with
  | performed action function_runs =>
    simpa [tail, Terminal.kept] using function_runs.landmarks_eq hg
  | @gathered accumulation mapper terminal fold action found mapper_maps gathers =>
    have hgcall := hg.of_reaches found.reaches_call
    have hgvalue := hgcall.of_mem_parts (c := accumulation.value) (by simp [found.parts_call])
    -- what the end of the pipeline refers to has none
    have hterminal : terminal.kept.flatMap tree.landmarks = [] := by
      refine List.flatMap_eq_nil_iff.2 fun t ht => Tree.Unmarked.landmarks_eq ?_
      cases gathers with
      | appended =>
        have hq : accumulation.qualifier = some t := Option.mem_toList.1 ht
        exact found.unmarked hq (hgcall.of_mem_parts (by simp [found.parts_call, hq]))
      | @folded var collector fold target site =>
        cases site with
        | declared up_attached block here creation =>
          obtain rfl := eq_of_mem_kept_collectorFor ht
          exact .expr creation rfl (by simp [Expr.children])
    rw [tail, List.flatMap_append, mapper_maps.landmarks_eq hgvalue, hterminal, List.append_nil,
      landmarks_of_found found hg]

/-- What counts as kept of the action has its landmarks as well. -/
theorem Ends.landmarks_kept (h : Ends analyzer tree candidate ending)
    (hg : tree.Grounded candidate.chain.action) :
    ending.kept.flatMap tree.landmarks = tree.landmarks candidate.chain.action := by
  cases h with
  | @performed function action function_runs =>
    cases hreference : function.isMethodRef with
    | true => simp [(function_runs.unmarked hg hreference).landmarks_eq]
    | false => simp
  | gathered action found mapper_maps gathers =>
    rw [landmarks_of_found found hg]
    exact List.flatMap_singleton ..

/-! ### The loop -/

namespace Planned

variable (h : Planned analyzer tree candidate ending plan)
include h

/-- **What is neither kept nor saved is no landmark**: without the comments that are saved, the body
has the landmarks of the conditions and of what the pipeline keeps of the action. -/
theorem filter_landmarks :
    (tree.landmarks candidate.body).filter
        (fun mark => !(savedComments tree candidate ending).contains mark.1) =
      (candidate.chain.conditions ++ tail ending.mapper ending.terminal).flatMap
        tree.landmarks := by
  have hg := h.wellFormed.grounded h.action_attached
  have hguarded := h.found.guarded h.wellFormed h.attached
  have hsaved : ∀ n, n ∈ savedComments tree candidate ending ↔ _ := fun n => mem_savedComments
  rw [List.flatMap_append, h.ends.landmarks_tail hg]
  refine hguarded.filter_landmarks (fun n => !(savedComments tree candidate ending).contains n)
    h.wellFormed (h.found.body_attached h.attached) (fun mark hmark => ?_) fun n hn hcomment hout =>
      ?_
  · -- below a part that is kept nothing is saved
    rw [← h.ends.landmarks_kept hg, ← List.flatMap_append] at hmark
    obtain ⟨part, hpart, hmark⟩ := List.mem_flatMap.1 hmark
    have hbelow := (Tree.reaches_of_mem_landmarks hmark).1
    simp only [Bool.not_eq_true', List.contains_eq_mem, decide_eq_false_iff_not]
    exact fun hin => ((hsaved _).1 hin).2.2 part hpart hbelow
  · -- and a comment in no part that is kept is saved
    simp only [Bool.not_eq_false', List.contains_eq_mem, decide_eq_true_eq]
    refine (hsaved n).2 ⟨hn, hcomment, fun part hpart hbelow => ?_⟩
    rcases List.mem_append.1 hpart with hpart | hpart
    · exact hout part (by simp [hpart]) hbelow
    · exact hout _ (by simp) ((h.ends.reaches_kept part hpart).trans hbelow)

theorem mark?_loop : tree.mark? candidate.loop =
    some (candidate.loop, .stmt (.forEach ⟨candidate.param, some (), some ()⟩)) := by
  rw [Tree.mark?_eq_of_kind? h.found.kind?_eq]
  rfl

theorem landmarks_loop : tree.landmarks candidate.loop =
    (tree.mark? candidate.loop).toList ++
      (tree.landmarks candidate.source ++ tree.landmarks candidate.body) := by
  rw [(h.wellFormed.grounded h.attached).landmarks_eq, h.found.parts_eq]
  simp

/-- **The comments of the loop** are those that are saved and those of the parts that are kept. -/
theorem comments_perm :
    tree.commentsBelow candidate.loop ~ savedComments tree candidate ending ++
      (linkedParts candidate ending).flatMap tree.commentsBelow := by
  have hloop : tree.commentsBelow candidate.loop =
      tree.commentsBelow candidate.source ++ tree.commentsBelow candidate.body := by
    rw [tree.commentsBelow_eq, tree.commentsBelow_eq, tree.commentsBelow_eq, h.landmarks_loop,
      h.mark?_loop]
    simp [Landmark.isComment, Kind.comment?]
  -- a comment of the body is saved or is one of a part that is kept
  have hsaved : (tree.commentsBelow candidate.body).filter
      (fun n => (savedComments tree candidate ending).contains n) =
        savedComments tree candidate ending := by
    refine (List.filter_congr fun n hn => ?_).trans rfl
    rw [Bool.eq_iff_iff, List.contains_iff_mem]
    exact ⟨fun hin => (List.mem_filter.1 hin).2, fun hp => List.mem_filter.2 ⟨hn, hp⟩⟩
  have hkept : (tree.commentsBelow candidate.body).filter
      (fun n => !(savedComments tree candidate ending).contains n) =
        (candidate.chain.conditions ++ tail ending.mapper ending.terminal).flatMap
          tree.commentsBelow := by
    rw [tree.flatMap_commentsBelow, ← h.filter_landmarks, tree.commentsBelow_eq, List.filter_map,
      List.filter_filter, List.filter_filter]
    exact congrArg _ (List.filter_congr fun mark _ => Bool.and_comm _ _)
  -- each comment of the body is in one of the two lists
  have hbody := List.filter_append_perm
    (fun n => (savedComments tree candidate ending).contains n) (tree.commentsBelow candidate.body)
  rw [hsaved, hkept] at hbody
  calc tree.commentsBelow candidate.loop
      _ = tree.commentsBelow candidate.source ++ tree.commentsBelow candidate.body := hloop
      _ ~ tree.commentsBelow candidate.source ++ (savedComments tree candidate ending ++
          (candidate.chain.conditions ++ tail ending.mapper ending.terminal).flatMap
            tree.commentsBelow) := hbody.symm.append_left _
      _ ~ savedComments tree candidate ending ++ (tree.commentsBelow candidate.source ++
          (candidate.chain.conditions ++ tail ending.mapper ending.terminal).flatMap
            tree.commentsBelow) := by
        rw [← List.append_assoc, ← List.append_assoc]
        exact List.perm_append_comm.append_right _
      _ = _ := by simp [linkedParts]

end Planned

/-! ### The whole tree -/

namespace Installed

variable (h : Installed tree style candidate ending typed replacement next)
include h

/-- No comment has been added. -/
theorem comment?_new (n : NodeId) (hn : tree.size ≤ n.index) :
    (next.comment? n).isSome = false := by
  cases hcomment : next.comment? n with
  | none => rfl
  | some text => cases h.glue n _ hn (Tree.comment?_eq_some.1 hcomment)

/-- No loop has been added. -/
theorem forEach?_new (n : NodeId) (hn : tree.size ≤ n.index) :
    (next.forEach? n).isSome = false := by
  cases hloop : next.forEach? n with
  | none => rfl
  | some fe => cases h.glue n _ hn (Tree.forEach?_eq_some.1 hloop)

end Installed

namespace Planned

variable (h : Planned analyzer tree candidate ending plan)
include h

/-- What the loop is folded into is a declaration, without landmarks in it. -/
theorem landmarks_foldedInto :
    (foldedInto ending.fold).flatMap tree.landmarks =
        (foldedInto ending.fold).filterMap tree.mark? ∧
      ∀ mark ∈ (foldedInto ending.fold).filterMap tree.mark?,
        mark.isComment = false ∧ mark.isForEach = false := by
  cases hfold : ending.fold with
  | none => simp [foldedInto]
  | some fold =>
    obtain ⟨-, _, var, _, _, _, _, -, -, hplace, hcreation⟩ := h.ends.exists_place hfold
    have hg := h.wellFormed.grounded hplace.declaration_attached
    have hmark : tree.mark? fold.declaration =
        some (fold.declaration, .stmt (.declare var (some ()))) :=
      Tree.mark?_eq_of_kind? hplace.declares
    have hinit : tree.Unmarked fold.initializer := .expr hcreation rfl (by simp [Expr.children])
    constructor
    · simp [foldedInto, hg.landmarks_eq, hmark, hplace.parts_declaration, hinit.landmarks_eq]
    · simp [foldedInto, hmark, Landmark.isComment, Landmark.isForEach, Kind.comment?, Kind.stmt?,
        Stmt.forEach?]

variable (hinstalled : Installed tree style candidate ending typed replacement next)
include hinstalled

/-- **The comments of the tree**: those of the loop give way for those that are saved, and behind
them those of the parts that are kept. -/
theorem comments :
    ∃ front back,
      tree.commentsBelow tree.root = front ++ tree.commentsBelow candidate.loop ++ back ∧
      next.commentsBelow next.root = front ++ (savedComments tree candidate ending ++
        (linkedParts candidate ending).flatMap tree.commentsBelow) ++ back := by
  obtain ⟨front, back, hbefore, hafter⟩ := hinstalled.landmarks
  obtain ⟨hlist, hfolded⟩ := h.landmarks_foldedInto
  -- a declaration is no comment
  have hnone : ((foldedInto ending.fold).filterMap tree.mark?).filter Landmark.isComment = [] :=
    List.filter_eq_nil_iff.2 fun mark hmark => by simp [(hfolded mark hmark).1]
  -- what is saved is comments only
  have hsaved : (((savedComments tree candidate ending).filterMap tree.mark?).filter
      Landmark.isComment).map Prod.fst = savedComments tree candidate ending := by
    rw [← Tree.filter_eq_marks tree.isSome_comment?_eq]
    exact List.filter_eq_self.2 fun n hn => (mem_savedComments.1 hn).2.1
  refine ⟨(front.filter Landmark.isComment).map Prod.fst,
    (back.filter Landmark.isComment).map Prod.fst, ?_, ?_⟩
  · rw [tree.commentsBelow_eq, tree.commentsBelow_eq, hbefore, List.flatMap_append, hlist]
    simp [hnone]
  · rw [Tree.commentsBelow,
      Tree.filter_eq_marksUpTo next.isSome_comment?_eq hinstalled.comment?_new, hafter,
      tree.flatMap_commentsBelow, List.filterMap_append]
    simp [hnone, hsaved]

/-- **A question that landmarks answer**, and comments do not, has the answers that it had before,
in the same order, and without the loop. -/
theorem marks (q : Landmark → Bool) (hcomment : ∀ mark, mark.isComment = true → q mark = false) :
    ∃ front back,
      (tree.landmarks tree.root).filter q =
        front ++ (tree.mark? candidate.loop).toList.filter q ++ back ∧
      (next.landmarksUpTo tree.size next.root).filter q = front ++ back := by
  obtain ⟨front, back, hbefore, hafter⟩ := hinstalled.landmarks
  -- comments that are saved make no difference, in the body and outside of it
  have hsaved : ∀ n ∈ savedComments tree candidate ending, ∀ mark, tree.mark? n = some mark →
      q mark = false := by
    intro n hn mark hmark
    have hsome := (mem_savedComments.1 hn).2.1
    rw [tree.isSome_comment?_eq, hmark] at hsome
    exact hcomment mark hsome
  -- so in the body the question is answered by what is kept
  have hbody : (tree.landmarks candidate.body).filter q =
      ((candidate.chain.conditions ++ tail ending.mapper ending.terminal).flatMap
        tree.landmarks).filter q := by
    rw [← h.filter_landmarks, List.filter_filter]
    refine List.filter_congr fun mark hmem => ?_
    obtain ⟨-, hmark⟩ := Tree.reaches_of_mem_landmarks hmem
    by_cases hin : mark.1 ∈ savedComments tree candidate ending
    · simp [hsaved mark.1 hin mark hmark]
    · simp [hin]
  have hnone : ((savedComments tree candidate ending).filterMap tree.mark?).filter q = [] := by
    refine List.filter_eq_nil_iff.2 fun mark hmark => ?_
    obtain ⟨n, hn, hmark⟩ := List.mem_filterMap.1 hmark
    simp [hsaved n hn mark hmark]
  refine ⟨front.filter q ++ ((foldedInto ending.fold).filterMap tree.mark?).filter q,
    ((linkedParts candidate ending).flatMap tree.landmarks).filter q ++ back.filter q, ?_, ?_⟩
  · rw [hbefore, List.flatMap_append, h.landmarks_foldedInto.1]
    simp [h.landmarks_loop, hbody, linkedParts]
  · rw [hafter, List.filterMap_append]
    simp [hnone]

/-- **The loops of the tree**: the loop is no longer there, and all others are, in the same order.
-/
theorem loops :
    ∃ front back, tree.loopsBelow tree.root = front ++ candidate.loop :: back ∧
      next.loopsBelow next.root = front ++ back := by
  obtain ⟨front, back, hbefore, hafter⟩ :=
    h.marks hinstalled Landmark.isForEach fun mark hcomment => by
    cases hloop : mark.isForEach with
    | false => rfl
    | true => simp [Landmark.isComment_of_isForEach hloop] at hcomment
  refine ⟨front.map Prod.fst, back.map Prod.fst, ?_, ?_⟩
  · rw [tree.loopsBelow_eq, hbefore, h.mark?_loop, List.map_append, List.map_append,
      List.append_assoc]
    rfl
  · rw [Tree.loopsBelow, Tree.filter_eq_marksUpTo next.isSome_forEach?_eq hinstalled.forEach?_new,
      hafter, List.map_append]

end Planned

end Pipeline

end LoopToStream
