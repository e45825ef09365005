import LoopToStream.Proofs.Pipeline.Staging

/-!
# A statement in the place of a loop

Where the loop was, there is a statement afterwards that has been staged for it
(`exists_stageReplacement`). The comments that are saved are put in front of the statement, or into
a block together with it where there is room for one statement only. Either way the edit is let
through, and the tree after it is the tree with the loop given up for the statement
(`Tree.Regrown`).
-/

namespace LoopToStream

open LoopToStream.Tree (Built InPlace Prints PrintsAll Salvage Regrown mem_flatMap_preorder)

namespace Tree

variable {tree : Tree} {ids mid kept comments : List NodeId}

/-- Texts of the tree that are there. -/
theorem WellFormed.exists_texts (hwf : tree.WellFormed) (hg : ∀ c ∈ ids, tree.Grounded c) :
    ∃ texts, ids.mapM tree.text = .ok texts ∧ tree.PrintsAll ids texts := by
  induction ids with
  | nil => exact ⟨[], rfl, .nil⟩
  | cons id ids ih =>
    obtain ⟨texts, htexts, hall⟩ := ih fun c hc => hg c (by simp [hc])
    obtain ⟨text, hprints⟩ := exists_prints (hg id (by simp)) hwf.vars_known
    refine ⟨text :: texts, ?_, .cons ⟨_, hprints⟩ hall⟩
    rw [List.mapM_cons, hprints.text_eq, htexts]
    rfl

theorem blockText_eq (texts : List String) (text : String) :
    blockText (texts ++ [text]) = "\x7b " ++ " ".intercalate (texts ++ [text]) ++ " \x7d" := by
  -- a blank in front of each is a blank between them and one in front
  have hjoin : ∀ texts : List String, String.join ((texts ++ [text]).map (" " ++ ·)) =
      " " ++ " ".intercalate (texts ++ [text]) := by
    intro texts
    induction texts with
    | nil => simp [String.join]
    | cons first rest ih =>
      -- there is at least one text to come, so the blank is between two
      obtain ⟨second, others, hrest⟩ : ∃ second others, rest ++ [text] = second :: others := by
        cases rest <;> exact ⟨_, _, rfl⟩
      rw [hrest] at ih
      rw [List.cons_append, hrest, String.intercalate_cons_cons, List.map_cons,
        String.join_cons, ih]
      simp [String.append_assoc]
  have hopen : ∀ rest : String, "\x7b" ++ (" " ++ rest) = "\x7b " ++ rest := fun rest => by
    rw [← String.append_assoc]
    rfl
  have hblock : blockText (texts ++ [text]) =
      "\x7b" ++ String.join ((texts ++ [text]).map (" " ++ ·)) ++ " \x7d" := by
    cases texts <;> rfl
  rw [hblock, hjoin, hopen]

/-- Comments that are saved may as well be kept. -/
theorem Salvage.keepComments (h : Salvage tree mid kept comments) :
    Salvage tree mid (comments ++ kept) [] := by
  have hground : ∀ c ∈ comments, tree.Grounded c := fun c hc => by
    obtain ⟨-, text, htext⟩ := h.comments c hc
    exact .layer htext (by simp [Kind.children])
  -- nothing is below a comment
  have hsingle : ∀ c ∈ comments, tree.preorder c = [c] := fun c hc => by
    obtain ⟨-, text, htext⟩ := h.comments c hc
    rw [(hground c hc).preorder_eq, parts_eq_children htext]
    rfl
  have hlist :
      (comments ++ kept).flatMap tree.preorder = comments ++ kept.flatMap tree.preorder := by
    rw [List.flatMap_append, List.flatMap_congr hsingle, List.flatMap_singleton']
  refine {
    grounded := fun c hc => (List.mem_append.1 hc).elim (hground c) (h.grounded c)
    nodup := by simpa [hlist] using h.nodup
    below := by simpa [hlist] using h.below
    outside := by simpa [hlist] using h.outside
    fits := fun n hn kind hkind => h.fits_all (hlist ▸ hn) hkind
    comments := by simp }

end Tree

/-- Operations are none of the staged nodes' business, all of them. -/
theorem Edit.Sound.setOps {tree : Tree} {edit : Edit} (h : edit.Sound tree) (ops : List EditOp) :
    ({ edit with ops := ops } : Edit).Sound tree :=
  ⟨h.baseSize_eq, h.baseRevision_eq, h.downward, h.vars_known, h.fits, h.glue⟩

namespace Pipeline

variable {tree : Tree} {place : Span} {before mid after : Edit} {kept : List NodeId}
  {id stmt call anchor : NodeId} {binding : Option Nat} {text part : String} {plan : Pipeline}

/-! ### Statements -/

/-- **A statement has been staged**, as a new node, from the beginning of an edit on. -/
structure EmitsStmt (tree : Tree) (after : Edit) (kept : List NodeId) (stmt : NodeId)
    (text : String) : Prop where
  stages : Stages tree (Edit.start tree) after kept [stmt]
  calls : ∃ call, (after.atop tree).kind? stmt = some (.stmt (.expr call))
  prints : (after.atop tree).Prints stmt none text
  staged : tree.size ≤ stmt.index

/-- A call as a statement. -/
theorem Emits.exists_statement (place : Span)
    (h : Emits tree (Edit.start tree) mid kept call binding part) :
    ∃ id after, stageStmt place (.expr call) mid = .ok (id, after) ∧
      EmitsStmt tree after kept id (part ++ ";") ∧ (mid.atop tree).Grows (after.atop tree) ∧
      after.ops = [] ∧ (after.atop tree).kind? id = some (.stmt (.expr call)) := by
  have hstage := h.stages.stage place (.stmt (.expr call))
    (by simp [Kind.vars, Stmt.vars]) (fun slot c hc => by
      simp only [Kind.slots, Stmt.slots, List.mem_singleton, Prod.mk.injEq] at hc
      obtain ⟨rfl, rfl⟩ := hc
      exact h.holds) rfl
  have hkind := h.stages.sound.add_kind? (.stmt (.expr call)) place
  have hgrow := h.stages.sound.grows_add (.stmt (.expr call)) place
  refine ⟨_, _, rfl, ⟨hstage, ⟨_, hkind⟩, ?_, h.stages.sound.le_limit⟩, hgrow, ?_, hkind⟩
  · exact Prints.exprStmt hstage.grounded hkind (h.prints.grow h.stages.grounded hgrow)
  · exact h.stages.ops_eq

/-! ### What stands where the loop was -/

/-- The statement itself, or a block for it behind the comments that are saved. -/
inductive Stands (tree : Tree) (inBlock : Bool) (comments : List NodeId) (stmt : NodeId) :
    NodeId → Prop where
  | alone (room : inBlock = true ∨ comments = []) : Stands tree inBlock comments stmt stmt
  | together {new : NodeId} (no_room : ¬ (inBlock = true ∨ comments = []))
      (here : tree.kind? new = some (.stmt (.block (comments ++ [stmt])))) :
      Stands tree inBlock comments stmt new

/-- The statement is there, whatever else stands with it. -/
theorem Stands.reaches {inBlock : Bool} {comments : List NodeId} {new : NodeId}
    (h : Stands tree inBlock comments stmt new) : tree.Reaches new stmt := by
  cases h with
  | alone room => exact .refl _
  | together no_room here =>
    exact .of_mem (by simp [Tree.parts_eq_children here, Kind.children, Stmt.children])

/-- **The text of what stands there**, where the comments are as they were before. -/
theorem Stands.exists_text {next : Tree} {inBlock : Bool} {comments : List NodeId} {new : NodeId}
    (h : Stands next inBlock comments stmt new) (hwf : tree.WellFormed)
    (hcomments : ∀ c ∈ comments, (∃ text, tree.kind? c = some (.comment text)) ∧
      next.kind? c = tree.kind? c)
    (hvars : next.vars = tree.vars) (hg : next.Grounded stmt)
    (hprints : next.Prints stmt none text) :
    ∃ full, Spelling.replacement tree inBlock comments text = .ok full ∧
      next.Grounded new ∧ next.Prints new none full := by
  cases h with
  | alone room => exact ⟨text, if_pos room, hg, hprints⟩
  | together no_room here =>
    -- a comment has no parts
    have hsame : ∀ c ∈ comments, tree.Grounded c ∧ tree.SameBelow next c := by
      intro c hc
      obtain ⟨⟨content, htext⟩, hnext⟩ := hcomments c hc
      refine ⟨.layer htext (by simp [Kind.children]), fun n hn => ?_⟩
      rcases Tree.reaches_iff.1 hn with rfl | ⟨d, hd, -⟩
      · exact hnext
      · simp [Tree.parts_eq_children htext, Kind.children] at hd
    obtain ⟨texts, htexts, hall⟩ := hwf.exists_texts fun c hc => (hsame c hc).1
    -- the block holds the comments and the statement
    have hgnew : next.Grounded new := .layer here fun c hc => by
      rcases List.mem_append.1 hc with hc | hc
      · exact (hsame c hc).2.grounded (hsame c hc).1
      · exact List.mem_singleton.1 hc ▸ hg
    have hblock := Prints.block hgnew here
      ((hall.congr (fun c hc => hsame c hc) hvars).append hprints.all_singleton)
    rw [Tree.blockText_eq] at hblock
    refine ⟨_, ?_, hgnew, hblock⟩
    rw [Spelling.replacement, if_neg no_room, htexts]
    rfl

/-! ### Operations -/

theorem stageOps_eq (comments : List NodeId) (op : NodeId → EditOp) (edit : Edit) :
    (comments.forM fun comment => stageOp (op comment)) edit =
      .ok (⟨⟩, { edit with ops := edit.ops ++ comments.map op }) := by
  induction comments generalizing edit with
  | nil => simp [staging_pure]
  | cons comment comments ih =>
    have hone : stageOp (op comment) edit = .ok ((), edit.addOp (op comment)) := rfl
    have hrest := ih (edit.addOp (op comment))
    simp only [List.forM_eq_forM] at hrest ⊢
    rw [List.forM_cons, staging_bind hone, hrest]
    simp [Edit.addOp]

theorem stageReplacement_eq {inBlock : Bool} (h : tree.isInBlock plan.loop = .ok inBlock)
    (edit : Edit) :
    stageReplacement tree place plan stmt edit =
      (if inBlock || plan.comments.isEmpty then do
        plan.comments.forM fun comment => stageOp (.insertBefore plan.loop comment)
        stageOp (.replace plan.loop stmt)
        return stmt
      else do
        let block ← stageStmt place (.block (plan.comments ++ [stmt]))
        stageOp (.replace plan.loop block)
        return block : Staging NodeId) edit := by
  have hlift : (liftM (tree.isInBlock plan.loop : Attempt Failure Bool) : Staging Bool) edit =
      .ok (inBlock, edit) := by
    rw [h]
    rfl
  unfold stageReplacement
  rw [staging_bind hlift]

/-! ### The replacement -/

/-- **A staged statement stands where the loop was.** -/
structure Replaced (tree : Tree) (plan : Pipeline) (inBlock : Bool) (staged after : Edit)
    (kept : List NodeId) (stmt new : NodeId) (next : Tree) : Prop where
  regrown : Regrown tree after [plan.loop] (plan.comments ++ kept.flatMap tree.preorder) new next
  /-- In a block it stands behind the comments that are saved. -/
  grafted : tree.Grafted next [plan.loop] ((if inBlock then plan.comments else []) ++ [new])
  /-- The statement is there as it was staged. -/
  sameBelow : (staged.atop tree).SameBelow next stmt
  stands : Stands next inBlock plan.comments stmt new
  staged : tree.size ≤ new.index

/-- A loop stands where any statement may stand. -/
theorem holds_of_loop {next : Tree} {found : ForEach NodeId} {s : Stmt NodeId} {slot : Slot}
    {loop new : NodeId} (hkind : tree.kind? loop = some (.stmt (.forEach found)))
    (hnew : next.kind? new = some (.stmt s)) (h : tree.Holds slot loop) : next.Holds slot new := by
  obtain ⟨kind, hkind', hadmits⟩ := h
  rw [hkind] at hkind'
  cases hkind'
  refine ⟨_, hnew, ?_⟩
  cases slot <;> first | rfl | cases hadmits

section Replacement

variable {inBlock : Bool} {found : ForEach NodeId} (h : EmitsStmt tree mid kept stmt text)
  (hwf : tree.WellFormed) (hloop : tree.Attached plan.loop)
  (hkind : tree.kind? plan.loop = some (.stmt (.forEach found)))
  (hsalvage : Salvage tree [plan.loop] kept plan.comments)
include h hwf hloop hkind hsalvage

/-- The comments go in front of the statement, if there are any. -/
theorem EmitsStmt.exists_alone (hroom : (tree.parent? plan.loop).any tree.isBlock = true ∨
      plan.comments = []) :
    ∃ after next, after = { mid with
        ops := plan.comments.map (EditOp.insertBefore plan.loop) ++ [.replace plan.loop stmt] } ∧
      tree.commit after = .ok next ∧
      Regrown tree after [plan.loop] (plan.comments ++ kept.flatMap tree.preorder) stmt next ∧
      tree.Grafted next [plan.loop] (plan.comments ++ [stmt]) := by
  obtain ⟨call, hstmt⟩ := h.calls
  obtain ⟨next, hcommit, hregrown, hgrafted⟩ := Edit.Sound.replaced hwf (h.stages.sound.setOps
    (plan.comments.map (EditOp.insertBefore plan.loop) ++ [.replace plan.loop stmt])) h.stages.built
    hsalvage hloop h.staged (fun slot => holds_of_loop hkind hstmt) rfl fun hne =>
      hroom.resolve_right hne
  exact ⟨_, next, rfl, hcommit, hregrown, hgrafted⟩

/-- A block is made for the comments and the statement. -/
theorem EmitsStmt.exists_together (place : Span) :
    ∃ block after next,
      stageStmt place (.block (plan.comments ++ [stmt])) mid = .ok (block, after) ∧
      tree.commit (after.addOp (.replace plan.loop block)) = .ok next ∧
      Regrown tree (after.addOp (.replace plan.loop block)) [plan.loop]
        (plan.comments ++ kept.flatMap tree.preorder) block next ∧
      tree.Grafted next [plan.loop] [block] ∧
      (mid.atop tree).SameBelow next stmt ∧
      next.kind? block = some (.stmt (.block (plan.comments ++ [stmt]))) ∧
      tree.size ≤ block.index := by
  have hs := h.stages.sound
  -- comments are linked like parts that are kept
  have hcomments : ∀ c ∈ plan.comments, tree.Grounded c ∧ tree.preorder c = [c] := fun c hc => by
    obtain ⟨-, content, htext⟩ := hsalvage.comments c hc
    have hg : tree.Grounded c := .layer htext (by simp [Kind.children])
    rw [hg.preorder_eq, Tree.parts_eq_children htext]
    exact ⟨hg, rfl⟩
  have hparts :
      Stages tree (Edit.start tree) mid (plan.comments ++ kept) (plan.comments ++ [stmt]) :=
    (Stages.keep .start fun c hc => (hcomments c hc).1).append h.stages
  -- a block has room for comments and statements
  have hfits : (mid.atop tree).Fits (.stmt (.block (plan.comments ++ [stmt]))) :=
    fun slot c hc => by
    simp only [Kind.slots, Stmt.slots, List.mem_map, List.mem_append, List.mem_singleton,
      Prod.mk.injEq] at hc
    obtain ⟨d, hd | rfl, rfl, rfl⟩ := hc
    · obtain ⟨-, content, htext⟩ := hsalvage.comments d hd
      exact ⟨_, (mid.grows_atop tree).kind?_of_some htext, rfl⟩
    · obtain ⟨call, hstmt⟩ := h.calls
      exact ⟨_, hstmt, rfl⟩
  -- the block is the last node that is staged, and it replaces the loop
  have hstage := hparts.stage place (.stmt (.block (plan.comments ++ [stmt])))
    (by simp [Kind.vars, Stmt.vars]) hfits rfl
  have hblock := hs.add_kind? (.stmt (.block (plan.comments ++ [stmt]))) place
  have hgrow := hs.grows_add (.stmt (.block (plan.comments ++ [stmt]))) place
  obtain ⟨next, hcommit, hregrown, hgrafted⟩ := Edit.Sound.replaced hwf
    (hstage.sound.addOp (.replace plan.loop ⟨mid.limit⟩)) hstage.built hsalvage.keepComments hloop
    hs.le_limit (fun slot => holds_of_loop hkind hblock)
    (by simp [Edit.addOp, h.stages.ops_eq, Edit.start]) (by simp)
  have hlist : (plan.comments ++ kept).flatMap tree.preorder =
      plan.comments ++ kept.flatMap tree.preorder := by
    rw [List.flatMap_append, List.flatMap_congr fun c hc => (hcomments c hc).2,
      List.flatMap_singleton']
  rw [List.nil_append, hlist] at hregrown
  refine ⟨_, _, next, rfl, hcommit, hregrown, hgrafted, fun n hn => ?_, ?_, hs.le_limit⟩
  · -- neither staging the block nor the commit has touched the statement
    have hbelow := hgrow.sameBelow h.stages.grounded
    refine (hregrown.sameBelow n ?_).trans (hbelow n hn)
    refine (hbelow.reaches hn).head ?_
    rw [Tree.parts_eq_children hblock]
    simp [Kind.children, Stmt.children]
  · exact (hregrown.sameBelow _ (.refl _)).trans hblock

/-- **The statement takes the place of the loop**, whatever place that is. -/
theorem EmitsStmt.exists_stageReplacement (place : Span) :
    ∃ inBlock new after next, tree.isInBlock plan.loop = .ok inBlock ∧
      stageReplacement tree place plan stmt mid = .ok (new, after) ∧
      tree.commit after = .ok next ∧ Replaced tree plan inBlock mid after kept stmt new next := by
  have hops : mid.ops = [] := h.stages.ops_eq
  have hparent := Tree.isInBlock_eq (hwf.lt_size hloop)
  by_cases hroom : (tree.parent? plan.loop).any tree.isBlock = true ∨ plan.comments = []
  · -- there is room, or nothing that needs it: the statement replaces the loop
    obtain ⟨after, next, rfl, hcommit, hregrown, hgrafted⟩ :=
      h.exists_alone hwf hloop hkind hsalvage hroom
    refine ⟨_, stmt, _, next, hparent, ?_, hcommit, hregrown, ?_, hregrown.sameBelow,
      .alone hroom, h.staged⟩
    · rw [stageReplacement_eq hparent, if_pos (by simpa using hroom),
        staging_bind (stageOps_eq ..), hops]
      rfl
    · split
      · exact hgrafted
      · next hno => rwa [hroom.resolve_left hno] at hgrafted
  · -- there is no room for the comments but in a block of their own
    obtain ⟨block, after, next, hblock, hcommit, hregrown, hgrafted, hbelow, hlayer, hstaged⟩ :=
      h.exists_together hwf hloop hkind hsalvage place
    refine ⟨_, block, _, next, hparent, ?_, hcommit, hregrown, ?_, hbelow,
      .together hroom hlayer, hstaged⟩
    swap
    · rw [if_neg (not_or.1 hroom).1]
      exact hgrafted
    rw [stageReplacement_eq hparent, if_neg (by simpa using hroom), staging_bind hblock]
    rfl

end Replacement

end Pipeline

end LoopToStream
