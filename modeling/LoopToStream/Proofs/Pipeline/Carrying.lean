import LoopToStream.Proofs.Pipeline.Collecting
import LoopToStream.Proofs.Pipeline.Enclosing

/-!
# The pipeline in the place of the loop

Carrying out a plan for a loop that has passed every check meets no obstacle, whichever way the
pipeline ends:

* `Planned.exists_performed` — a function is run on each element;
* `Planned.exists_appended` — the elements are added to a collection;
* `Planned.exists_folded` — the elements become the initial value of a declaration.

In each case the tree is well-formed again, the loop no longer hangs in it, and what hangs there
instead prints as the pipeline that is spelled from the parts of the loop (`Pipeline.Installed`).
The parts that the pipeline refers to hang in the tree as they were, and their landmarks stand where
those of the loop stood.
-/

namespace LoopToStream

open scoped List
open LoopToStream.Tree (InPlace Prints Salvage Regrown mem_flatMap_preorder mem_preorder_iff)

namespace Pipeline

/-- **A plan for a loop** of a well-formed tree that has passed every check. -/
structure Planned (analyzer : Analyzer) (tree : Tree) (candidate : Candidate) (ending : Ending)
    (plan : Pipeline) : Prop where
  wellFormed : tree.WellFormed
  attached : tree.Attached candidate.loop
  found : Candidate.Found analyzer tree candidate.loop candidate
  ends : Ends analyzer tree candidate ending
  follows : Follows tree candidate ending plan

/-- **The pipeline is where the loop was.** -/
structure Installed (tree : Tree) (style : CollectorStyle) (candidate : Candidate) (ending : Ending)
    (typed : Bool) (replacement : NodeId) (next : Tree) : Prop where
  wellFormed : next.WellFormed
  size_le : tree.size ≤ next.size
  detached : ¬ next.Attached candidate.loop
  attached : next.Attached replacement
  /-- The type of a parameter takes a second change. -/
  revision_eq : next.revision = tree.revision + if typed then 2 else 1
  vars_eq : next.vars = tree.vars
  root_eq : candidate.loop ≠ tree.root → next.root = tree.root
  root_eq_new : candidate.loop = tree.root → next.root = replacement
  /-- Of the layers that were there, those change that linked the loop or are what it is folded
  into. -/
  frame : ∀ n, n.index < tree.size → n ∉ foldedInto ending.fold →
    tree.parent? candidate.loop ≠ some n → next.kind? n = tree.kind? n
  folded_eq : ∀ d ∈ foldedInto ending.fold, d = replacement
  /-- What has been added is glue. -/
  glue : ∀ n kind, tree.size ≤ n.index → next.kind? n = some kind → kind.isGlue = true
  /-- Outside of literals of the parameter it links bare parts of the loop only. -/
  encloses : ∀ n kind, tree.size ≤ n.index → next.kind? n = some kind →
    Encloses tree.size candidate.param (bareParts candidate ending) kind
  /-- So does what the loop is folded into, which links new code. -/
  initial_new : ∀ d ∈ foldedInto ending.fold, ∀ var init,
    next.kind? d = some (.stmt (.declare var (some init))) → tree.size ≤ init.index
  /-- Around the loop and the declaration that it is folded into, nothing else is changed. -/
  grafted : tree.Grafted next (foldedInto ending.fold ++ [candidate.loop])
    (inFront tree candidate ending ++ [replacement])
  /-- In a block, the comments that are saved stand in front. -/
  inPlace : InPlace tree next (foldedInto ending.fold ++ [candidate.loop])
    (savedComments tree candidate ending ++ [replacement])
  /-- Elsewhere, they stand with the pipeline in a block that is made for them. -/
  stands : ending.fold = none → ∃ inBlock stmt call, tree.isInBlock candidate.loop = .ok inBlock ∧
    Stands next inBlock (savedComments tree candidate ending) stmt replacement ∧
    next.kind? stmt = some (.stmt (.expr call)) ∧ tree.size ≤ replacement.index
  keeps : ∀ part ∈ linkedParts candidate ending, next.Attached part ∧ tree.SameBelow next part
  /-- Elements that are gathered are collected from the chain. -/
  collects : candidate.kind = .accumulation → ∃ collected chain,
    Collects next replacement collected chain ∧
    CollectCall tree next (chainParts candidate ending) collected chain ∧
    ∀ fold ∈ ending.fold, ∃ var init,
      tree.kind? fold.declaration = some (.stmt (.declare var (some init))) ∧
      next.kind? replacement = some (.stmt (.declare var (some collected)))
  /-- Saved comments and what is kept have their landmarks where those of the loop were. -/
  landmarks : ∃ front back,
    tree.landmarks tree.root =
      front ++ (foldedInto ending.fold ++ [candidate.loop]).flatMap tree.landmarks ++ back ∧
    next.landmarksUpTo tree.size next.root =
      front ++
        ((savedComments tree candidate ending ++ foldedInto ending.fold).filterMap tree.mark? ++
        (linkedParts candidate ending).flatMap tree.landmarks) ++ back
  text : ∃ text, Spelling.whole tree style candidate ending typed = .ok text ∧
    next.Prints replacement none text

variable {analyzer : Analyzer} {tree next : Tree} {candidate : Candidate} {ending : Ending}
  {plan : Pipeline} {style : CollectorStyle} {mid after : Edit} {stmt new call f chain : NodeId}
  {function : StageFunction} {text part : String} {typed : Bool}

/-! ### Statements in the place of the loop -/

namespace Planned

variable (h : Planned analyzer tree candidate ending plan)
include h

theorem loop_attached : tree.Attached plan.loop := h.follows.loop_eq ▸ h.attached

theorem kind?_loop : tree.kind? plan.loop =
    some (.stmt (.forEach ⟨candidate.param, some candidate.source, some candidate.body⟩)) :=
  h.follows.loop_eq ▸ h.found.kind?_eq

/-- What is kept of a loop that is not folded into a declaration. -/
theorem salvage (hfold : ending.fold = none) :
    Salvage tree [plan.loop] plan.kept plan.comments := by
  have hsalvage := h.follows.salvage_of h.wellFormed h.attached h.found h.ends
    (by simpa [foldedInto, hfold] using h.wellFormed.nodup_preorder h.attached)
  rw [h.follows.loop_eq]
  simpa [foldedInto, hfold] using hsalvage

/-- The saved comments are still there. -/
theorem comments_unchanged {inBlock : Bool} (hfold : ending.fold = none)
    (hreplaced : Replaced tree plan inBlock mid after plan.kept stmt new next) :
    ∀ c ∈ plan.comments, (∃ text, tree.kind? c = some (.comment text)) ∧
      next.kind? c = tree.kind? c := by
  intro c hc
  have hsalvage := h.salvage hfold
  obtain ⟨hattached, hcomment⟩ := hsalvage.comments c hc
  have hmem : c ∈ plan.comments ++ plan.kept.flatMap tree.preorder := List.mem_append_left _ hc
  exact ⟨hcomment, hreplaced.regrown.unchanged c (hsalvage.below c hmem hattached)
    (hsalvage.outside c hmem)⟩

/-- All that is written, given what the statement is written as. -/
theorem whole_eq {inBlock : Bool} {full : String} (hfold : ending.fold = none)
    (hparent : tree.isInBlock plan.loop = .ok inBlock)
    (hstatement : Spelling.statement tree style candidate ending typed = .ok text)
    (hfull : Spelling.replacement tree inBlock plan.comments text = .ok full) :
    Spelling.whole tree style candidate ending typed = .ok full := by
  rw [h.follows.loop_eq] at hparent
  rw [h.follows.comments_eq] at hfull
  simp [Spelling.whole, hstatement, hfold, hparent, hfull]

/-- In a block, the comments that are saved stand in front. -/
theorem inPlace {replacement : NodeId}
    (hgrafted : tree.Grafted next (foldedInto ending.fold ++ [candidate.loop])
      (inFront tree candidate ending ++ [replacement])) :
    InPlace tree next (foldedInto ending.fold ++ [candidate.loop])
      (savedComments tree candidate ending ++ [replacement]) := by
  intro up left right hup hblock
  have hroom : (tree.parent? candidate.loop).any tree.isBlock = true := by
    rw [h.wellFormed.parent?_of_mem hup
      (by simp [Tree.parts_eq_children hblock, Kind.children, Stmt.children])]
    simp [Tree.isBlock, Tree.stmt?_eq_some.2 hblock, Stmt.isBlock]
  rw [inFront, if_pos hroom] at hgrafted
  exact hgrafted.inPlace h.wellFormed (by simp) up left right hup hblock

/-- What the pipeline links hangs in the tree. -/
theorem linkedParts_attached : ∀ part ∈ linkedParts candidate ending, tree.Attached part := by
  rw [← h.follows.kept_eq_linkedParts]
  exact h.follows.kept_attached h.wellFormed h.attached h.found h.ends

/-- What the pipeline refers to is as it was, where the change leaves alone what is below what it
gives up. -/
theorem keeps {given : List NodeId} (hsalvage : Salvage tree given plan.kept plan.comments)
    (hunchanged : ∀ n ∈ given.flatMap tree.preorder, n ∉ given → next.kind? n = tree.kind? n)
    (hkept : ∀ c ∈ plan.kept, next.Attached c) :
    ∀ part ∈ linkedParts candidate ending, next.Attached part ∧ tree.SameBelow next part := by
  intro part hpart
  have hattached := h.linkedParts_attached part hpart
  rw [← h.follows.kept_eq_linkedParts] at hpart
  refine ⟨hkept part hpart, fun n hn => ?_⟩
  have hmem : n ∈ plan.comments ++ plan.kept.flatMap tree.preorder :=
    List.mem_append_right _ (mem_flatMap_preorder.2 ⟨part, hpart, hn⟩)
  exact hunchanged n (hsalvage.below n hmem (hattached.reaches hn)) (hsalvage.outside n hmem)

/-- **A statement that has been staged** takes the place of the loop. -/
theorem exists_installed (place : Span) (hfold : ending.fold = none)
    (hemits : EmitsStmt tree mid plan.kept stmt text)
    (henclosed : ∀ new after, stageReplacement tree place plan stmt mid = .ok (new, after) →
      Enclosed tree.size plan.param plan.bare after)
    (htext : Spelling.statement tree style candidate ending false = .ok text)
    (hcollects : candidate.kind = .accumulation → ∃ collected chain,
      Collects (mid.atop tree) stmt collected chain ∧
      CollectCall tree (mid.atop tree) (chainParts candidate ending) collected chain) :
    ∃ inBlock new after next, tree.isInBlock plan.loop = .ok inBlock ∧
      stageReplacement tree place plan stmt mid = .ok (new, after) ∧
      tree.commit after = .ok next ∧
      Replaced tree plan inBlock mid after plan.kept stmt new next ∧
      Installed tree style candidate ending false new next := by
  have hsalvage := h.salvage hfold
  -- staging the replacement succeeds, and so does the commit
  obtain ⟨inBlock, new, after, next, hparent, hstage, hcommit, hreplaced⟩ :=
    hemits.exists_stageReplacement h.wellFormed h.loop_attached h.kind?_loop hsalvage place
  -- what the commit says about any tree that has grown anew
  have hregrown := hreplaced.regrown
  have hg := hemits.stages.grounded
  obtain ⟨call, hcall⟩ := hemits.calls
  have hvars : next.vars = tree.vars := hregrown.committed.vars_eq
  -- the replacement prints as the comments that were saved and then the statement
  obtain ⟨full, hfull, -, hprints⟩ := hreplaced.stands.exists_text h.wellFormed
    (h.comments_unchanged hfold hreplaced) hvars (hreplaced.sameBelow.grounded hg)
    (hemits.prints.congr hg hreplaced.sameBelow hvars)
  -- around it, the lists of statements are as they were
  have hgrafted : tree.Grafted next (foldedInto ending.fold ++ [candidate.loop])
      (inFront tree candidate ending ++ [new]) := by
    have hgrafted := hreplaced.grafted
    rw [h.follows.loop_eq, Tree.isInBlock_eq (h.wellFormed.lt_size h.attached)] at hparent
    rw [h.follows.loop_eq, h.follows.comments_eq, ← Except.ok.inj hparent] at hgrafted
    simpa [foldedInto, hfold, inFront] using hgrafted
  -- each field is one of these facts, put in the words of the ending
  refine ⟨inBlock, new, after, next, hparent, hstage, hcommit, hreplaced, {
    wellFormed := hregrown.wellFormed
    size_le := hregrown.size_le
    detached := fun hloop => ?_
    attached := hregrown.new_attached
    revision_eq := hregrown.committed.revision_eq
    vars_eq := hvars
    root_eq := fun hne => hregrown.root_eq (by simpa [h.follows.loop_eq] using hne.symm)
    root_eq_new := fun heq => hregrown.root_eq_new (by simp [h.follows.loop_eq, heq])
    frame := fun n hn _ hparent => hregrown.frame n hn
      (fun hmem => hsalvage.outside n hmem.2 hmem.1) (by simpa [h.follows.loop_eq] using hparent)
    folded_eq := by simp [foldedInto, hfold]
    glue := hregrown.glue
    encloses := fun n kind hn hkind => ?_
    initial_new := by simp [foldedInto, hfold]
    grafted := hgrafted
    inPlace := h.inPlace hgrafted
    stands := fun _ => ⟨inBlock, stmt, call, h.follows.loop_eq ▸ hparent,
      h.follows.comments_eq ▸ hreplaced.stands,
      (hreplaced.sameBelow stmt (.refl _)).trans hcall, hreplaced.staged⟩
    keeps := h.keeps hsalvage hregrown.unchanged fun c hc =>
      hregrown.new_attached.reaches (hreplaced.stands.reaches.trans
        (hreplaced.sameBelow.reaches (hemits.stages.reaches_kept hc)))
    collects := fun hkind => ?_
    landmarks := ?_
    text := ⟨full, h.whole_eq hfold hparent htext hfull, hprints⟩ }⟩
  · -- the loop would have to be among what is kept
    rw [← h.follows.loop_eq] at hloop
    have hmem := hregrown.bound plan.loop (mem_flatMap_preorder.2 ⟨_, by simp, .refl _⟩) hloop
    exact hsalvage.outside plan.loop hmem (by simp)
  · -- what is new is what has been staged, and its literals bind the parameter only
    rw [hregrown.kind?_new n hn] at hkind
    rw [← h.follows.bare_eq, ← h.follows.param_eq]
    exact (henclosed new after hstage).of_kind? hn hkind
  · -- the call that collects is below the statement, where nothing has changed since
    obtain ⟨collected, chain, hcollects, hcall⟩ := hcollects hkind
    exact ⟨collected, chain, hreplaced.stands.collects (hcollects.transfer hreplaced.sameBelow),
      hcall.transfer (hreplaced.sameBelow.of_reaches hcollects.reaches), by simp [hfold]⟩
  · -- the order of the tree: in the place of the loop stands what is kept of it
    obtain ⟨front, back, hbefore, hafter⟩ := hregrown.landmarks
    rw [h.follows.loop_eq] at hbefore
    rw [List.filterMap_append, ← Tree.flatMap_landmarks, h.follows.kept_eq_linkedParts,
      h.follows.comments_eq] at hafter
    refine ⟨front, back, by simpa [foldedInto, hfold] using hbefore, ?_⟩
    simpa [foldedInto, hfold] using hafter

end Planned

/-! ### A function that is run on each element -/

/-- The statement that runs a function on each element, and where in it the function is. -/
structure RunsEach (tree next : Tree) (function : StageFunction) (stmt call f chain : NodeId)
    (part : String) : Prop where
  stmt_kind : next.kind? stmt = some (.stmt (.expr call))
  call_kind : next.kind? call = some (.expr (.call ⟨some chain, "forEach", [f], none⟩))
  chain_grounded : next.Grounded chain
  f_grounded : next.Grounded f
  chain_prints : next.Prints chain (some 15) part
  closure : next.isClosure f = true
  staged : tree.size ≤ f.index
  call_staged : tree.size ≤ call.index
  kept : ∀ t ∈ function.kept, next.Reaches f t
  landmarks_eq : next.landmarksUpTo tree.size f = function.kept.flatMap tree.landmarks

namespace RunsEach

theorem call_mem (h : RunsEach tree next function stmt call f chain part) :
    call ∈ next.parts stmt := by
  simp [Tree.parts_eq_children h.stmt_kind, Kind.children, Stmt.children]

theorem parts_call (h : RunsEach tree next function stmt call f chain part) :
    next.parts call = [chain, f] := by
  rw [Tree.parts_eq_children h.call_kind]
  rfl

/-- What has been staged is there after the edit. -/
theorem transfer {before : Tree} (h : RunsEach tree before function stmt call f chain part)
    (hsame : before.SameBelow next stmt) (hvars : next.vars = before.vars) :
    RunsEach tree next function stmt call f chain part := by
  have hcall : before.Reaches stmt call := .of_mem h.call_mem
  have hchain := hcall.tail (c := chain) (by simp [h.parts_call])
  have hf := hcall.tail (c := f) (by simp [h.parts_call])
  refine {
    stmt_kind := (hsame stmt (.refl _)).trans h.stmt_kind
    call_kind := (hsame call hcall).trans h.call_kind
    chain_grounded := (hsame.of_reaches hchain).grounded h.chain_grounded
    f_grounded := (hsame.of_reaches hf).grounded h.f_grounded
    chain_prints := h.chain_prints.congr h.chain_grounded (hsame.of_reaches hchain) hvars
    closure := ?_
    staged := h.staged
    call_staged := h.call_staged
    kept := fun t ht => (hsame.of_reaches hf).reaches (h.kept t ht)
    landmarks_eq := ((hsame.of_reaches hf).landmarksUpTo_eq h.f_grounded).trans h.landmarks_eq }
  have hclosure := h.closure
  rwa [Tree.isClosure, Tree.expr?, ← hsame f hf] at hclosure

end RunsEach

/-- **A loop whose action is run by a function**, after the change that has put the pipeline in its
place. -/
structure Performed (analyzer : Analyzer) (tree : Tree) (candidate : Candidate) (ending : Ending)
    (plan : Pipeline) (style : CollectorStyle) (function : StageFunction) (inBlock : Bool)
    (edit : Edit) (new stmt call f chain : NodeId) (part : String) (next : Tree) : Prop
    extends Planned analyzer tree candidate ending plan where
  ending_eq : ending = ⟨none, .forEach function, none,
    if function.isMethodRef then [] else [candidate.chain.action]⟩
  runs : Runs analyzer tree candidate.param candidate.chain.action function
  parent_eq : tree.isInBlock plan.loop = .ok inBlock
  replaced : ∃ mid, Replaced tree plan inBlock mid edit plan.kept stmt new next
  installed : Installed tree style candidate ending false new next
  chain_eq : Spelling.chain tree candidate none = .ok part
  each : RunsEach tree next function stmt call f chain part
  chain_keeps : ∀ c ∈ candidate.source :: candidate.chain.conditions, next.Reaches chain c

namespace Planned

variable (h : Planned analyzer tree candidate ending plan)
include h

theorem kept_grounded (hfold : ending.fold = none) : ∀ c ∈ plan.kept, tree.Grounded c :=
  (h.salvage hfold).grounded

/-- **The elements are run through a function.** -/
theorem exists_performed (style : CollectorStyle) (options : Options) (place : Span)
    (hending : ending = ⟨none, .forEach function, none,
      if function.isMethodRef then [] else [candidate.chain.action]⟩)
    (hruns : Runs analyzer tree candidate.param candidate.chain.action function) :
    ∃ inBlock new after next stmt call f chain part,
      stagePlan options tree place plan (Edit.start tree) = .ok (⟨new, false, some call⟩, after) ∧
      tree.commit after = .ok next ∧
      Performed analyzer tree candidate ending plan style function inBlock after new stmt
        call f chain part next := by
  have hmapper : ending.mapper = none := by rw [hending]
  have hterminal : ending.terminal = .forEach function := by rw [hending]
  have hfold : ending.fold = none := by rw [hending]
  -- the function is one that can be staged
  have hsensible := hruns.sensible (h.found.param_known h.wellFormed) fun kind hkind =>
    h.wellFormed.fits _ kind (h.found.action_attached h.wellFormed h.attached) hkind
  have hkept : plan.kept = chainParts candidate ending ++ function.kept := by
    rw [h.follows.kept_eq_chainParts, hterminal, Terminal.kept]
  -- the chain, the call, and the statement around it are staged one behind the other
  obtain ⟨chain, m₁, part, hchain, hchainText, hemitsChain⟩ := exists_stageChain place h.wellFormed
    .start h.attached h.found h.ends h.follows (h.kept_grounded hfold)
  rw [hmapper] at hchainText
  obtain ⟨call, m₂, text, f, hcall, htext, hemitsCall, hkindCall, hclosure, hsize, hreach,
      hmarks, hgrowCall⟩ :=
    hemitsChain.exists_stageStep place "forEach" h.wellFormed hsensible fun c hc =>
      h.kept_grounded hfold c (by simp [hkept, hc])
  obtain ⟨stmt, mid, hstmt, hemits, hgrow, -, hkindStmt⟩ := hemitsCall.exists_statement place
  rw [← hkept] at hemits
  -- what they print is what the spelling of the ending says
  have hstatement : Spelling.statement tree style candidate ending false =
      .ok (Spelling.call part "forEach" text ++ ";") := by
    simp [Spelling.statement, hmapper, hterminal, hchainText, htext]
  -- and these stagings are what the plan asks for
  have hrun : ∀ new after, stageReplacement tree place plan stmt mid = .ok (new, after) →
      stagePlan options tree place plan (Edit.start tree) =
        .ok (⟨new, false, some call⟩, after) := by
    intro new after hstage
    rw [stagePlan, staging_bind hchain, h.follows.terminal_eq, h.follows.fold_eq, hterminal, hfold]
    dsimp only
    rw [staging_bind hcall, staging_bind hstmt, staging_bind hstage]
    rfl
  -- a literal that has been staged binds nothing but the parameter
  have henclosed := fun new after hstage =>
    Enclosed.stagePlan (h.follows.binds h.ends) _ _ _ (hrun new after hstage) (.start le_rfl)
  obtain ⟨inBlock, new, after, next, hparent, hstage, hcommit, hreplaced, hinstalled⟩ :=
    h.exists_installed place hfold hemits henclosed hstatement fun hkind => by
      simp [h.ends.kind_eq_of_forEach hterminal] at hkind
  refine ⟨inBlock, new, after, next, stmt, call, f, chain, part, hrun new after hstage, hcommit,
    ⟨h, hending, hruns, hparent, ⟨mid, hreplaced⟩, hinstalled, hchainText, ?_, fun c hc => ?_⟩⟩
  · have hchainMid := hgrowCall.trans hgrow
    have hgChain := hemitsChain.stages.grounded
    have hgFunction := hemitsCall.stages.grounded.of_mem_parts (c := f)
      (by simp [Tree.parts_eq_children hkindCall, Kind.children, Expr.children])
    -- the call runs each element through the function already before the commit
    have hbefore : RunsEach tree (mid.atop tree) function stmt call f chain part := {
      stmt_kind := hkindStmt
      call_kind := hgrow.kind?_of_some hkindCall
      chain_grounded := hchainMid.grounded hgChain
      f_grounded := hgrow.grounded hgFunction
      chain_prints := hemitsChain.prints.grow hgChain hchainMid
      closure := hgrow.isClosure hclosure
      staged := hsize
      call_staged := Nat.le_of_not_lt fun hlt => by
        -- a node of the tree does not link what has been staged
        have hold := (mid.grows_atop tree).kind?_eq call hlt
        rw [hgrow.kind?_of_some hkindCall] at hold
        exact Nat.not_lt.2 hsize
          (h.wellFormed.links_known call _ hold.symm f (by simp [Kind.children, Expr.children]))
      kept := fun t ht => hgrow.reaches hgFunction (hreach t ht)
      landmarks_eq := ((hgrow.sameBelow hgFunction).landmarksUpTo_eq hgFunction).trans hmarks }
    exact hbefore.transfer hreplaced.sameBelow hreplaced.regrown.committed.vars_eq
  · have hstmt : (mid.atop tree).Reaches stmt chain := by
      refine (Tree.Reaches.of_mem (c := call) ?_).tail ?_
      · simp [Tree.parts_eq_children hkindStmt, Kind.children, Stmt.children]
      · simp [Tree.parts_eq_children (hgrow.kind?_of_some hkindCall), Kind.children, Expr.children]
    exact (hreplaced.sameBelow.of_reaches hstmt).reaches
      ((hgrowCall.trans hgrow).reaches hemitsChain.stages.grounded
        (hemitsChain.stages.reaches_kept (List.mem_append_left _ hc)))

/-! ### Elements that are gathered -/

omit h in
/-- What has been collected is added, to the collection in front or to the implicit receiver. -/
theorem exists_addAll (hwf : tree.WellFormed) (place : Span) {before mid : Edit}
    {receiver : Option NodeId} {kept : List NodeId} {collected : NodeId} {text : String}
    (hemits : Emits tree before mid kept collected (some 15) text)
    (hg : ∀ q ∈ receiver.toList, tree.Grounded q)
    (htight : ∀ q ∈ receiver.toList, ∃ e, tree.kind? q = some (.expr e) ∧ e.precedence = 15)
    (hunmarked : ∀ q ∈ receiver.toList, tree.Unmarked q) :
    ∃ call after full, stageCall place receiver "addAll" [collected] mid = .ok (call, after) ∧
      Spelling.callOn tree "addAll" text receiver = .ok full ∧
      Emits tree before after (kept ++ receiver.toList) call (some 15) full ∧
      (after.atop tree).kind? call =
        some (.expr (.call ⟨receiver, "addAll", [collected], none⟩)) := by
  cases receiver with
  | none =>
    obtain ⟨call, after, hcall, hcalls, hkind⟩ := hemits.stages.emitUnqualified place "addAll"
      [collected] (by simpa using hemits.holds) hemits.prints.all_singleton
    refine ⟨call, after, _, hcall, rfl, ?_, hkind⟩
    rw [Spelling.unqualified_eq]
    simpa using hcalls
  | some q =>
    have hgq := hg q (by simp)
    -- the receiver prints without parentheses, and does so still
    obtain ⟨qtext, hqtext, hholds, hprints⟩ := exists_tight hwf hgq (htight q (by simp))
    have hgrow := mid.grows_atop tree
    have hqualifier : Stages tree mid mid [q] [q] :=
      .keep hemits.stages.sound (by simpa using hgq)
    -- the receiver comes last in the loop and stands in front now
    have hstages := (hemits.stages.append hqualifier).rotate
      ((hunmarked q (by simp)).congr hgq (hgrow.sameBelow hgq)).landmarksUpTo_eq
    obtain ⟨call, after, hcall, hcalls, hkind⟩ := hstages.emitCall place "addAll" [collected]
      (hgrow.holds hholds) (hprints.grow hgq hgrow) (by simpa using hemits.holds)
      hemits.prints.all_singleton
    refine ⟨call, after, _, hcall, by rw [Spelling.callOn, hqtext]; rfl, ?_, hkind⟩
    rw [Spelling.call_eq]
    simpa using hcalls

/-- **The elements are added to a collection.** -/
theorem exists_appended (options : Options) (place : Span) {receiver : Option NodeId}
    (hterminal : ending.terminal = .addAll receiver) (hfold : ending.fold = none)
    (htight : ∀ q ∈ receiver.toList, ∃ e, tree.kind? q = some (.expr e) ∧ e.precedence = 15)
    (hunmarked : ∀ q ∈ receiver.toList, tree.Unmarked q) :
    ∃ new after next,
      stagePlan options tree place plan (Edit.start tree) = .ok (⟨new, false, none⟩, after) ∧
      tree.commit after = .ok next ∧
      Installed tree options.collectorStyle candidate ending false new next := by
  have hkept : plan.kept = chainParts candidate ending ++ receiver.toList := by
    rw [h.follows.kept_eq_chainParts, hterminal, Terminal.kept]
  have hkg := h.kept_grounded hfold
  -- the chain, the list that it is collected into, and the call that adds that list
  obtain ⟨chain, m₁, part, hchain, hchainText, hemitsChain⟩ := exists_stageChain place h.wellFormed
    .start h.attached h.found h.ends h.follows hkg
  obtain ⟨collected, m₂, hcollected, hemitsCollected, -, hgrowChain, hkindCollected⟩ :=
    hemitsChain.exists_stageCollected place "toList" options "" (.nil hemitsChain.stages.sound)
      (by simp) .nil rfl
  have hcollectCall := hemitsChain.collectCall hemitsCollected hgrowChain hkindCollected
    (fun c hc => hkg c (by rw [hkept]; exact List.mem_append_left _ (by simpa using hc))) (by simp)
  obtain ⟨call, m₃, text, hcall, htext, hemitsCall, hkindCall⟩ := exists_addAll h.wellFormed place
    hemitsCollected (fun q hq => hkg q (by simp [hkept, Option.mem_toList.1 hq])) htight hunmarked
  obtain ⟨stmt, mid, hstmt, hemits, hgrowStmt, -, hkindStmt⟩ := hemitsCall.exists_statement place
  rw [List.append_nil, ← hkept] at hemits
  -- what the commit needs is known before it
  have hgrow := (grows_of_stageExpr hemitsCollected.stages.sound hcall).trans hgrowStmt
  have hstatement : Spelling.statement tree options.collectorStyle candidate ending false =
      .ok (text ++ ";") := by
    simp [Spelling.statement, hterminal, hchainText, Spelling.collector, htext]
  have hrun : ∀ new after, stageReplacement tree place plan stmt mid = .ok (new, after) →
      stagePlan options tree place plan (Edit.start tree) = .ok (⟨new, false, none⟩, after) := by
    intro new after hstage
    rw [stagePlan, staging_bind hchain, h.follows.terminal_eq, h.follows.fold_eq, hterminal, hfold]
    dsimp only
    rw [staging_bind hcollected, staging_bind hcall, staging_bind hstmt, staging_bind hstage]
    rfl
  have henclosed := fun new after hstage =>
    Enclosed.stagePlan (h.follows.binds h.ends) _ _ _ (hrun new after hstage) (.start le_rfl)
  obtain ⟨inBlock, new, after, next, -, hstage, hcommit, -, hinstalled⟩ :=
    h.exists_installed place hfold hemits henclosed hstatement fun _ => by
      obtain ⟨collector, hkind⟩ := hkindCollected
      exact ⟨collected, chain,
        .added hkindStmt (hgrowStmt.kind?_of_some hkindCall) (hgrow.kind?_of_some hkind),
        by simpa using hcollectCall.transfer (hgrow.sameBelow hcollectCall.grounded)⟩
  exact ⟨new, after, next, hrun new after hstage, hcommit, hinstalled⟩

/-! ### A declaration with what is gathered -/

section Folding

variable {up : NodeId} {var : VarId} {left right : List NodeId} {fold : Fold}

/-- Neighbours in a block have nothing below them in common. -/
theorem nodup_neighbours (hplace : tree.DeclaredInFront up fold.declaration fold.initializer
      candidate.loop var left right) :
    ([fold.declaration, candidate.loop].flatMap tree.preorder).Nodup := by
  have hwf := h.wellFormed
  have hall := hwf.nodup_preorder hplace.attached
  rw [(hwf.grounded hplace.attached).preorder_eq, List.nodup_cons, hplace.parts_up] at hall
  have hsub : [fold.declaration, candidate.loop] <+
      left ++ fold.declaration :: candidate.loop :: right :=
    (List.prefix_append [fold.declaration, candidate.loop] right).sublist.trans
      (List.sublist_append_right _ _)
  exact (hsub.flatMap _).nodup hall.2

/-- What is kept of a loop and of the declaration that it is folded into. -/
theorem salvage_folded (hfold : ending.fold = some fold)
    (hplace : tree.DeclaredInFront up fold.declaration fold.initializer candidate.loop var left
      right) :
    Salvage tree [fold.declaration, candidate.loop] plan.kept plan.comments := by
  have hapart : ((foldedInto ending.fold ++ [candidate.loop]).flatMap tree.preorder).Nodup := by
    rw [hfold]
    exact h.nodup_neighbours hplace
  have hsalvage := h.follows.salvage_of h.wellFormed h.attached h.found h.ends hapart
  rw [hfold] at hsalvage
  exact hsalvage

/-- A loop that is folded into a declaration stands in a block. -/
theorem grafted_folded (hfold : ending.fold = some fold)
    (hplace : tree.DeclaredInFront up fold.declaration fold.initializer candidate.loop var left
      right)
    (hgrafted : tree.Grafted next [fold.declaration, candidate.loop]
      (plan.comments ++ [fold.declaration])) :
    tree.Grafted next (foldedInto ending.fold ++ [candidate.loop])
      (inFront tree candidate ending ++ [fold.declaration]) := by
  rw [h.follows.comments_eq] at hgrafted
  rw [hfold, inFront, if_pos (hplace.in_block h.wellFormed (by simp))]
  exact hgrafted

/-- **A declaration whose initial value has been staged** takes the place of the loop. -/
theorem installed_folded (hfold : ending.fold = some fold)
    (hplace : tree.DeclaredInFront up fold.declaration fold.initializer candidate.loop var left
      right) {edit : Edit} {collected : NodeId}
    (hemits : Emits tree (Edit.start tree) mid plan.kept collected (some 15) text)
    (hcollectCall : CollectCall tree (mid.atop tree) (chainParts candidate ending) collected chain)
    (hsame : (mid.atop tree).SameBelow next collected)
    (hregrown : Regrown tree edit [fold.declaration, candidate.loop]
      (plan.comments ++ fold.declaration :: plan.kept.flatMap tree.preorder) collected next)
    (hgrafted : tree.Grafted next [fold.declaration, candidate.loop]
      (plan.comments ++ [fold.declaration]))
    (hattached : next.Attached fold.declaration)
    (henclosed : Enclosed tree.size plan.param plan.bare edit) (hnew : tree.size ≤ collected.index)
    (hdeclares : next.kind? fold.declaration = some (.stmt (.declare var (some collected))))
    (htext : Spelling.whole tree style candidate ending false =
      Spelling.declaration tree fold.declaration text) :
    Installed tree style candidate ending false fold.declaration next where
  wellFormed := hregrown.wellFormed
  size_le := hregrown.size_le
  detached := by
    -- the loop would have to be among what is kept, or be the declaration
    intro hloop
    have hsalvage := h.salvage_folded hfold hplace
    have hmem := hregrown.bound _ (mem_flatMap_preorder.2 ⟨candidate.loop, by simp, .refl _⟩) hloop
    rcases List.mem_cons.1 (List.perm_middle.subset hmem) with heq | hmem
    · have hneighbours := h.nodup_neighbours hplace
      rw [List.flatMap_cons, List.flatMap_singleton] at hneighbours
      refine (List.nodup_append'.1 hneighbours).2.2 (mem_preorder_iff.2 (.refl _)) ?_
      exact heq ▸ mem_preorder_iff.2 (.refl _)
    · exact hsalvage.outside _ hmem (by simp)
  attached := hattached
  revision_eq := hregrown.committed.revision_eq
  vars_eq := hregrown.committed.vars_eq
  root_eq _ := hregrown.root_eq fun hmem => by
    -- neither of them is the root, for both are linked from the block
    have htop := h.wellFormed.linkedOnce.top_unlinked up hplace.attached
    exact htop (hplace.mem_parts_up hmem)
  root_eq_new heq := by
    have htop := h.wellFormed.linkedOnce.top_unlinked up hplace.attached
    exact absurd (hplace.mem_parts_up (by simp [heq])) htop
  frame n hn hno hparent := by
    have hsalvage := h.salvage_folded hfold hplace
    refine hregrown.frame n hn (fun ⟨hgiven, hold⟩ => ?_) fun m hm hup => hparent ?_
    · rcases List.mem_cons.1 (List.perm_middle.subset hold) with rfl | hold
      · simp [foldedInto, hfold] at hno
      · exact hsalvage.outside n hold hgiven
    · -- the declaration and the loop are in the same block
      rw [← hup, h.wellFormed.parent?_of_mem hplace.attached (hplace.mem_parts_up hm),
        h.wellFormed.parent?_of_mem hplace.attached (hplace.mem_parts_up (by simp))]
  folded_eq := by simp [foldedInto, hfold]
  glue := hregrown.glue
  encloses n kind hn hkind := by
    rw [hregrown.kind?_new n hn] at hkind
    rw [← h.follows.bare_eq, ← h.follows.param_eq]
    exact henclosed.of_kind? hn hkind
  initial_new d hd v init hkind := by
    obtain rfl : d = fold.declaration := by simpa [foldedInto, hfold] using hd
    rw [hdeclares] at hkind
    cases hkind
    exact hnew
  grafted := h.grafted_folded hfold hplace hgrafted
  inPlace := h.inPlace (h.grafted_folded hfold hplace hgrafted)
  stands hnone := by simp [hfold] at hnone
  keeps := h.keeps (h.salvage_folded hfold hplace) hregrown.unchanged fun c hc =>
    hregrown.new_attached.reaches (hsame.reaches (hemits.stages.reaches_kept hc))
  collects _ := by
    have hcall := hcollectCall.transfer hsame
    obtain ⟨collector, here⟩ := hcall.here
    refine ⟨collected, chain, .declared hdeclares here, hcall, fun fold' hfold' => ?_⟩
    obtain rfl : fold = fold' := by simpa [hfold] using hfold'
    exact ⟨var, fold.initializer, hplace.declares, hdeclares⟩
  landmarks := by
    obtain ⟨front, back, hbefore, hafter⟩ := hregrown.landmarks
    refine ⟨front, back, by simpa [foldedInto, hfold] using hbefore, ?_⟩
    -- in the order of the tree: comments, declaration, and what is kept
    have hlist : plan.comments ++ fold.declaration :: plan.kept.flatMap tree.preorder =
        (savedComments tree candidate ending ++ foldedInto ending.fold) ++
          plan.kept.flatMap tree.preorder := by
      simp [h.follows.comments_eq, foldedInto, hfold]
    rw [hafter, hlist, List.filterMap_append, ← Tree.flatMap_landmarks,
      h.follows.kept_eq_linkedParts]
  text := by
    have hvars := hregrown.committed.vars_eq
    -- the declaration prints its variable, and then its new initial value
    have hknown : var.index < tree.vars.size := h.wellFormed.vars_known fold.declaration _
      hplace.declares var (by simp [Kind.vars, Stmt.vars])
    have hprints := Prints.declare (hregrown.wellFormed.grounded hattached) hdeclares
      (Tree.var_of_lt (hvars ▸ hknown)) (hemits.prints.congr hemits.stages.grounded hsame hvars)
    refine ⟨_, htext.trans ?_, hprints⟩
    simp [Spelling.declaration, Tree.stmt?_eq_some.2 hplace.declares, Tree.var_of_lt hknown, hvars]

/-- **The elements become the initial value of a declaration.** -/
theorem exists_folded (options : Options) (place : Span) {collector : Collector}
    (hterminal : ending.terminal = .collect collector) (hfold : ending.fold = some fold)
    (hsite : FoldSite tree candidate.loop var collector fold) :
    ∃ after next,
      stagePlan options tree place plan (Edit.start tree) =
        .ok (⟨fold.declaration, true, none⟩, after) ∧
      tree.commit after = .ok next ∧
      Installed tree options.collectorStyle candidate ending false fold.declaration next := by
  cases hsite with
  | @declared up declaration init left right type target hup hblock hdeclare hcreation =>
    have hwf := h.wellFormed
    -- the loop stands behind the declaration that its elements are folded into
    have hplace : tree.DeclaredInFront up declaration init candidate.loop var left right :=
      ⟨hup, hblock, hdeclare⟩
    have hsalvage := h.salvage_folded hfold hplace
    have hkept : plan.kept = chainParts candidate ending ++ (collectorFor type init).kept := by
      rw [h.follows.kept_eq_chainParts, hterminal, Terminal.kept]
    -- the chain and the collecting call are staged as for any other ending
    obtain ⟨chain, m₁, part, hchain, hchainText, hemitsChain⟩ := exists_stageChain place hwf .start
      h.attached h.found h.ends h.follows hsalvage.grounded
    -- a supplier is the creation that the declaration has now
    have hsupplier : ∀ c ∈ (collectorFor type init).kept,
        tree.Grounded c ∧ tree.Holds .expression c := by
      intro c hc
      refine ⟨hsalvage.grounded c (by simp [hkept, hc]), ?_⟩
      obtain rfl := eq_of_mem_kept_collectorFor hc
      exact ⟨_, hcreation, rfl⟩
    obtain ⟨collected, m₂, text, hcollected, htext, hemits, hnew, hgrow, hkindCollected⟩ :=
      hemitsChain.exists_stageCollection place options hwf hsupplier
    -- the call collects what the chain yields
    have hcollectCall := hemitsChain.collectCall hemits hgrow hkindCollected
      (fun c hc => hsalvage.grounded c (hkept ▸ hc)) fun c hc =>
        not_mentions_collectorFor hcreation hc
    rw [← hkept] at hemits
    -- the edits: comments go in front, the initial value is exchanged, the loop is removed
    obtain ⟨ops, hops⟩ : ∃ ops, ops = plan.comments.map (EditOp.insertBefore declaration) ++
      [EditOp.replace init collected, EditOp.remove candidate.loop] := ⟨_, rfl⟩
    obtain ⟨next, hcommit, hregrown, hgrafted, hattached, hdeclares⟩ := Edit.Sound.folded hwf
      (hemits.stages.sound.setOps ops) hemits.stages.built hsalvage
      (h.follows.kept_attached hwf h.attached h.found h.ends) hplace hnew hemits.holds hops
    have hrun : stagePlan options tree place plan (Edit.start tree) =
        .ok (⟨declaration, true, none⟩, { m₂ with ops := ops }) := by
      -- staging does not plan any edits of its own
      have hempty : m₂.ops = [] := hemits.stages.ops_eq
      rw [stagePlan, staging_bind hchain, h.follows.terminal_eq, h.follows.fold_eq,
        hterminal, hfold]
      dsimp only
      rw [staging_bind hcollected, staging_bind (stageOps_eq ..), hempty, hops,
        ← h.follows.loop_eq]
      change Except.ok (_, { m₂ with ops := ([] ++ _ ++ [EditOp.replace init collected]) ++
        [EditOp.remove plan.loop] }) = _
      simp
    have henclosed : Enclosed tree.size plan.param plan.bare { m₂ with ops := ops } :=
      Enclosed.stagePlan (h.follows.binds h.ends) _ _ _ hrun (.start le_rfl)
    refine ⟨{ m₂ with ops := ops }, next, hrun, hcommit, h.installed_folded hfold hplace hemits
      hcollectCall hregrown.sameBelow hregrown hgrafted hattached henclosed hnew hdeclares ?_⟩
    simp only [Spelling.whole, Spelling.statement, hchainText, hterminal, hfold, htext, ok_bind]
    exact bind_pure _

end Folding

end Planned

end Pipeline

end LoopToStream
