import LoopToStream.Proofs.Pipeline.Carrying

/-!
# The type of the parameter

Where `forEach` accepts function literals of several shapes, the tree is changed a second time: the
function gives way to a literal over the action of the loop, with the type of its parameter and with
a block. Nothing else is changed, so that all that is known about the first change stays true
(`Performed.installed_typed`).

What has to be seen for the second change is that the action hangs in the tree, if at all, below the
function that gives way (`Performed.salvage_function`): what the first change has kept besides stood
apart from it in the loop.
-/

namespace LoopToStream

open scoped List
open LoopToStream.Tree (InPlace Prints Salvage Regrown mem_flatMap_preorder mem_preorder_iff)

namespace Pipeline

variable {analyzer : Analyzer} {tree next last : Tree} {candidate : Candidate} {ending : Ending}
  {plan : Pipeline} {style : CollectorStyle} {edit edit₂ : Edit}
  {stmt new call f chain lambda : NodeId} {function : StageFunction} {part text : String}
  {inBlock : Bool}

/-- The tree after the second change: the call has another argument. -/
structure Retyped (next last : Tree) (edit : Edit) (action f call chain lambda : NodeId) :
    Prop where
  regrown : Regrown next edit [f] ([] ++ [action].flatMap next.preorder) lambda last
  kind?_eq : ∀ n, n ≠ call → n.index < next.size → last.kind? n = next.kind? n
  call_kind : last.kind? call = some (.expr (.call ⟨some chain, "forEach", [lambda], none⟩))
  reaches_action : last.Reaches lambda action
  /-- The argument is new. -/
  fresh : next.size ≤ lambda.index

/-! ### Staging the literal -/

/-- What a literal over the action is made over, for it to have a block. -/
def blockOf (tree : Tree) (action : NodeId) : LambdaBody :=
  if tree.isBlock action then .block action else .wrapped action

theorem blockOf_node (tree : Tree) (action : NodeId) : (blockOf tree action).node = action := by
  unfold blockOf
  split <;> rfl

theorem explicitly_eq (tree : Tree) (plan : Pipeline) (f : NodeId) {place : Span}
    (hplace : tree.span f = .ok place) {body : NodeId} {m₁ m₂ : Edit}
    (hbody : stageBody place (blockOf tree plan.action) (Edit.start tree) = .ok (body, m₁))
    (hlambda : stageExpr place (.lambda [plan.param] true body) m₁ = .ok (lambda, m₂)) :
    explicitly tree plan f = .ok (m₂.addOp (.replace f lambda)) := by
  have hdone : (stageBody place (blockOf tree plan.action) >>= fun body =>
      stageExpr place (.lambda [plan.param] true body) >>= fun lambda =>
        stageOp (.replace f lambda)) (Edit.start tree) =
          .ok ((), m₂.addOp (.replace f lambda)) := by
    rw [staging_bind hbody, staging_bind hlambda]
    rfl
  have hrun : explicitly tree plan f = (liftM (tree.span f) : Attempt Failure Span) >>= fun place =>
      (stageBody place (blockOf tree plan.action) >>= fun body =>
        stageExpr place (.lambda [plan.param] true body) >>= fun lambda =>
          stageOp (.replace f lambda)) (Edit.start tree) >>= fun staged => .ok staged.2 := by
    unfold explicitly blockOf
    cases tree.isBlock plan.action <;> rfl
  rw [hrun, hplace, Attempt.liftM_ok, ok_bind, hdone]
  rfl

/-! ### The action after the first change -/

namespace Planned

variable (h : Planned analyzer tree candidate ending plan)
include h

theorem action_attached : tree.Attached candidate.chain.action :=
  h.found.action_attached h.wellFormed h.attached

/-- The action is strictly below the loop. -/
theorem loop_strictly_action : tree.StrictlyReaches candidate.loop candidate.chain.action :=
  Tree.strictlyReaches_iff.2 ⟨candidate.body, by simp [h.found.parts_eq],
    (h.found.guarded h.wellFormed h.attached).reaches_action⟩

theorem not_reaches_loop : ¬ tree.Reaches candidate.chain.action candidate.loop := fun hback =>
  h.wellFormed.linkedOnce.irrefl h.attached (h.loop_strictly_action.trans_left hback)

end Planned

namespace Performed

variable
    (h : Performed analyzer tree candidate ending plan style function inBlock edit new stmt call
  f chain part next)
include h

/-- The first change has left the action as it is. -/
theorem action_sameBelow : tree.SameBelow next candidate.chain.action := by
  obtain ⟨mid, hreplaced⟩ := h.replaced
  have hregrown := hreplaced.regrown
  intro n hn
  rw [h.follows.loop_eq] at hregrown
  refine hregrown.unchanged n ?_ fun hmem => ?_
  · exact mem_flatMap_preorder.2 ⟨_, by simp, h.loop_strictly_action.reaches.trans hn⟩
  · exact h.toPlanned.not_reaches_loop (List.mem_singleton.1 hmem ▸ hn)

/-- **What still hangs in the tree of the action** hangs below the function. -/
theorem reaches_function {n : NodeId} (hn : tree.Reaches candidate.chain.action n)
    (hattached : next.Attached n) : next.Reaches f n := by
  obtain ⟨mid, hreplaced⟩ := h.replaced
  have hwf := h.wellFormed
  have hg := hwf.grounded h.action_attached
  have hbody := h.found.body_attached h.attached
  have hguarded := h.found.guarded hwf h.attached
  have hloop : n ∈ [plan.loop].flatMap tree.preorder := by
    rw [h.follows.loop_eq]
    exact mem_flatMap_preorder.2 ⟨_, by simp, h.loop_strictly_action.reaches.trans hn⟩
  rcases List.mem_append.1 (hreplaced.regrown.bound n hloop hattached) with hmem | hmem
  · -- comments of the action have not been saved: they are kept, or there are none
    rw [h.follows.comments_eq] at hmem
    obtain ⟨-, hcomment, hlost⟩ := mem_savedComments.1 hmem
    cases hreference : function.isMethodRef with
    | true => simp [(h.runs.unmarked hg hreference).comment?_eq_none hn] at hcomment
    | false => exact absurd hn (hlost _ (by simp [h.ending_eq, hreference]))
  · obtain ⟨c, hc, hcn⟩ := mem_flatMap_preorder.1 hmem
    rw [h.follows.kept_eq, h.ending_eq] at hc
    simp only [tail, Option.toList_none, List.flatMap_nil, List.nil_append, Terminal.kept,
      List.cons_append, List.mem_cons, List.mem_append] at hc
    have hbodyn := hguarded.reaches_action.trans hn
    rcases hc with rfl | hc | hc
    · -- the source stands beside the body
      have hparts := h.found.parts_eq
      have honce := hwf.linkedOnce.once _ h.attached
      rw [hparts] at honce
      refine absurd hbodyn (hwf.linkedOnce.siblings_disjoint h.attached (by simp [hparts])
        (by simp [hparts]) (fun heq => ?_) hcn)
      simp [heq] at honce
    · -- the conditions stand beside the action
      have hnodup := (hguarded.sublist (hwf.grounded hbody)).nodup (hwf.nodup_preorder hbody)
      exact absurd (mem_preorder_iff.2 hn)
        ((List.nodup_append'.1 hnodup).2.2 (mem_flatMap_preorder.2 ⟨c, hc, hcn⟩))
    · have hsame := h.action_sameBelow.of_reaches (h.runs.reaches c hc)
      exact (h.each.kept c hc).trans (hsame.reaches hcn)

/-- **What the second change keeps** of the function that it gives up. -/
theorem salvage_function :
    Salvage next [f] [candidate.chain.action] [] := by
  have hwf := h.wellFormed
  have hg := hwf.grounded h.action_attached
  have hsame := h.action_sameBelow
  -- what is kept is below the action
  have hlist : ∀ {n}, n ∈ [] ++ [candidate.chain.action].flatMap next.preorder →
      tree.Reaches candidate.chain.action n := fun hn => by
    rw [List.nil_append, List.flatMap_singleton, hsame.preorder_eq hg] at hn
    exact mem_preorder_iff.1 hn
  refine {
    grounded := by simpa using hsame.grounded hg
    nodup := ?_
    below := fun n hn hattached => ?_
    outside := fun n hn hmem => ?_
    fits := fun n hn kind hkind slot c hslot => ?_
    comments := by simp }
  · rw [List.nil_append, List.flatMap_singleton, hsame.preorder_eq hg]
    exact hwf.nodup_preorder h.action_attached
  · -- and so in the literal that is given up
    have hreach := h.reaches_function (hlist hn) hattached
    exact mem_flatMap_preorder.2 ⟨f, by simp, hreach⟩
  · rw [List.mem_singleton.1 hmem] at hn
    exact Nat.not_lt.2 h.each.staged (hg.of_reaches (hlist hn)).lt_size
  · -- the parts of a node are below the action as well
    have hn := hlist hn
    rw [hsame n hn] at hkind
    obtain ⟨kind', hkind', hadmits⟩ :=
      hwf.fits n kind (h.action_attached.reaches hn) hkind slot c hslot
    have hc : c ∈ tree.parts n := by
      rw [Tree.parts_eq_children hkind]
      exact Kind.mem_children_of_mem_slots hslot
    exact ⟨kind', (hsame c (hn.tail hc)).trans hkind', hadmits⟩

/-! ### The literal with a type -/

theorem reaches_stmt : next.Reaches new stmt := by
  obtain ⟨mid, hreplaced⟩ := h.replaced
  exact hreplaced.stands.reaches

theorem reaches_call : next.Reaches new call := h.reaches_stmt.tail h.each.call_mem

theorem call_attached : next.Attached call := h.installed.attached.reaches h.reaches_call

theorem f_mem : f ∈ next.parts call := by simp [h.each.parts_call]

theorem vars_eq : next.vars = tree.vars := by
  obtain ⟨mid, hreplaced⟩ := h.replaced
  exact hreplaced.regrown.committed.vars_eq

/-- The action prints as it did. -/
theorem body_eq (body : LambdaBody) (hbody : body.node = candidate.chain.action) :
    Spelling.body next body = Spelling.body tree body := by
  have hg := h.wellFormed.grounded h.action_attached
  obtain ⟨text, hprints⟩ := Tree.exists_prints hg h.wellFormed.vars_known
  have hsame : next.text body.node = tree.text body.node := by
    rw [hbody, hprints.text_eq, (hprints.congr hg h.action_sameBelow h.vars_eq).text_eq]
  cases body <;> simp_all [Spelling.body, LambdaBody.node]

omit h in
theorem typedText_eq (v : Variable) (block : String) :
    parameterText true [v] ++ " -> " ++ block =
      "(" ++ v.type.text ++ " " ++ v.name ++ ") -> " ++ block := by
  have harrow : ")" ++ (" -> " ++ block) = ") -> " ++ block := by
    rw [← String.append_assoc]
    rfl
  simp only [parameterText, if_true, String.append_assoc]
  rw [harrow]

/-- **The literal is staged.** -/
theorem exists_lambda (place : Span) :
    ∃ body m₁ lambda m₂ text,
      stageBody place (blockOf next plan.action) (Edit.start next) = .ok (body, m₁) ∧
      stageExpr place (.lambda [plan.param] true body) m₁ = .ok (lambda, m₂) ∧
      Spelling.typedFunction tree candidate.param candidate.chain.action = .ok text ∧
      Emits next (Edit.start next) m₂ [candidate.chain.action] lambda (some 0) text ∧
      next.size ≤ lambda.index := by
  have hwf := h.installed.wellFormed
  have hsame := h.action_sameBelow
  have hg := hsame.grounded (h.wellFormed.grounded h.action_attached)
  have hparam := h.found.param_known h.wellFormed
  have hvar : next.var candidate.param = tree.var candidate.param := by
    rw [Tree.var, Tree.var, h.vars_eq]
  have hv := Tree.var_of_lt hparam
  -- the action is what it was, and so is its form as a body
  have hblock : blockOf next plan.action = blockOf tree candidate.chain.action := by
    rw [h.follows.action_eq, blockOf, blockOf, Tree.isBlock, Tree.isBlock, Tree.stmt?, Tree.stmt?,
      hsame _ (.refl _)]
  have hnode := blockOf_node tree candidate.chain.action
  -- it fits there: a block as it is, and a statement in a block
  have hholds : next.Holds (blockOf tree candidate.chain.action).slot
      (blockOf tree candidate.chain.action).node := by
    obtain ⟨kind, hkind, hadmits⟩ := h.found.action_holds h.wellFormed h.attached
    rw [hnode]
    refine ⟨kind, (hsame _ (.refl _)).trans hkind, ?_⟩
    unfold blockOf
    split
    · next hisBlock =>
      obtain ⟨s, hs, hisBlock⟩ := (Option.any_eq_true _ _).1 hisBlock
      rw [Tree.stmt?_eq_some, hkind] at hs
      cases hs
      exact hisBlock
    · exact hadmits
  -- the body is staged, and the literal with the typed parameter around it
  obtain ⟨body, m₁, text, binding, hbody, htext, hstages, hinner, hprints⟩ :=
    exists_stageBody place hwf .start (hnode.symm ▸ hg) hholds
  rw [hnode] at hstages
  have hparams : [candidate.param].mapM next.var = .ok [tree.vars[candidate.param.index]] := by
    simp [List.mapM_cons, hvar, hv]
  obtain ⟨lambda, m₂, hlambda, hemits, -⟩ := hstages.emitLambda place [candidate.param] true
    (by simpa [h.vars_eq] using hparam) hparams hinner hprints
  refine ⟨body, m₁, lambda, m₂, _, hblock ▸ hbody, h.follows.param_eq ▸ hlambda, ?_, hemits, ?_⟩
  · rw [h.body_eq _ hnode] at htext
    rw [Spelling.typedFunction, hv]
    change Spelling.body tree (blockOf tree candidate.chain.action) >>= _ = _
    rw [htext, typedText_eq]
    rfl
  · rw [id_of_stageExpr hlambda]
    exact hstages.sound.le_limit

/-! ### The second change -/

omit h in
/-- An expression may stand wherever another one does. -/
theorem holds_of_expr {e e' : Expr NodeId} {slot : Slot} {old : NodeId}
    (hkind : tree.kind? old = some (.expr e)) (hnew : next.kind? new = some (.expr e'))
    (hold : tree.Holds slot old) : next.Holds slot new := by
  obtain ⟨kind, hkind', hadmits⟩ := hold
  rw [hkind] at hkind'
  cases hkind'
  refine ⟨_, hnew, ?_⟩
  cases slot <;> first | rfl | cases hadmits

/-- **The literal takes the place of the function**, and nothing else is changed. -/
theorem exists_retyped :
    ∃ edit last lambda text, explicitly next plan f = .ok edit ∧ next.commit edit = .ok last ∧
      Retyped next last edit candidate.chain.action f call chain lambda ∧
      Spelling.typedFunction tree candidate.param candidate.chain.action = .ok text ∧
      last.Prints lambda (some 0) text := by
  have hwf := h.installed.wellFormed
  have hcall := h.call_attached
  have hf := hcall.of_mem h.f_mem
  obtain ⟨place, hplace⟩ := Tree.exists_span (hwf.lt_size hf)
  obtain ⟨body, m₁, lambda, m₂, text, hbody, hlambda, htext, hemits, hsize⟩ := h.exists_lambda place
  have hs := hemits.stages.sound.addOp (.replace f lambda)
  have hops : (m₂.addOp (.replace f lambda)).ops = [.replace f lambda] := by
    have hempty : m₂.ops = [] := hemits.stages.ops_eq
    simp [Edit.addOp, hempty]
  obtain ⟨e, he, -⟩ := (Option.any_eq_true _ _).1 h.each.closure
  obtain ⟨kind, hkind, hadmits⟩ := hemits.holds
  -- what is staged is an expression, and so is what it replaces
  obtain ⟨e', rfl⟩ : ∃ e', kind = .expr e' := by
    cases kind <;> first | exact ⟨_, rfl⟩ | cases hadmits
  -- the literal that is given up loses nothing but itself
  have hsalvage := h.salvage_function
  obtain ⟨last, hcommit, hregrown, -⟩ := Edit.Sound.replaced hwf hs hemits.stages.built hsalvage hf
    hsize (fun slot => holds_of_expr (Tree.expr?_eq_some.1 he) hkind) hops (by simp)
  -- the same commit, looked at layer by layer
  obtain ⟨last', hcommit', -, hlayers⟩ := Edit.commit_replace hwf hs
    (hemits.stages.built.checkLinks_eq hs hsalvage.grounded
      (List.nodup_append'.1 hsalvage.nodup).2.1) hops hf
    (hemits.stages.sound.size_atop ▸ hemits.stages.grounded.lt_size)
  obtain rfl : last = last' := Except.ok.inj (hcommit.symm.trans hcommit')
  -- the function has one parent, which is the call
  obtain ⟨up, hup, hmem, -, hkinds, hlayer⟩ := hlayers.resolve_left fun htop =>
    hwf.linkedOnce.top_unlinked call hcall (htop.1 ▸ h.f_mem)
  obtain rfl := hwf.linkedOnce.one_linker up call f hup hcall hmem h.f_mem
  refine ⟨_, last, lambda, text, explicitly_eq next plan f hplace hbody hlambda, hcommit,
    ⟨hregrown, fun n hn hlt => ?_, ?_, hregrown.sameBelow.reaches
      (hemits.stages.reaches_kept (by simp)), hsize⟩, htext, ?_⟩
  · rw [hkinds n hn]
    exact (Edit.grows_atop _ next).kind?_eq n hlt
  · -- the call links the chain and the literal, and the chain is not the function
    have honce := hwf.linkedOnce.once up hup
    have hchain : chain ≠ f := by
      rw [h.each.parts_call] at honce
      rintro rfl
      simp at honce
    rw [hlayer, h.each.call_kind]
    simp [Edit.swapped, Kind.map, Expr.map, hchain]
  · exact hemits.prints.congr hemits.stages.grounded hregrown.sameBelow
      hregrown.committed.vars_eq

/-! ### All that is known about the first change -/

section Second

variable (hretyped : Retyped next last edit₂ candidate.chain.action f call chain lambda)
include hretyped

/-- The code around the call is as it was. -/
theorem unchanged {kind : Kind NodeId} (n : NodeId) (hkind : next.kind? n = some kind)
    (hno : ∀ e, kind ≠ .expr e) : last.kind? n = some kind := by
  refine (hretyped.kind?_eq n (fun heq => ?_) (Tree.lt_size_of_kind? hkind)).trans hkind
  rw [heq, h.each.call_kind] at hkind
  exact hno _ (Option.some.inj hkind).symm

/-- The code in front of the call is as it was. -/
theorem chain_sameBelow : next.SameBelow last chain := by
  intro n hn
  have hg := h.each.chain_grounded.of_reaches hn
  refine hretyped.kind?_eq n (fun heq => ?_) hg.lt_size
  refine h.installed.wellFormed.linkedOnce.irrefl h.call_attached ?_
  exact Tree.strictlyReaches_iff.2 ⟨chain, by simp [h.each.parts_call], heq ▸ hn⟩

/-- What stands where the loop was still stands there. -/
theorem stands_unchanged {room : Bool} {comments : List NodeId} {stmt new : NodeId}
    (hstands : Stands next room comments stmt new) : Stands last room comments stmt new := by
  cases hstands with
  | alone room => exact .alone room
  | together no_room here => exact .together no_room (h.unchanged hretyped new here (by simp))

/-- The call is new, so that the second change leaves alone all that was there before the first. -/
theorem old_unchanged (n : NodeId) (hn : n.index < tree.size) : last.kind? n = next.kind? n :=
  hretyped.kind?_eq n (fun heq => Nat.not_lt.2 h.each.call_staged (heq ▸ hn))
    (hn.trans_le h.installed.size_le)

/-- Code of the loop that the first change has left as it was is left so by the second. -/
theorem old_sameBelow {a : NodeId} (ha : tree.Attached a) (hsame : tree.SameBelow next a) :
    tree.SameBelow last a := by
  intro n hn
  exact (h.old_unchanged hretyped n (h.wellFormed.lt_size (ha.reaches hn))).trans (hsame n hn)

/-- What the pipeline refers to is as it was, and is below the literal or in front of it. -/
theorem keeps_typed : ∀ part ∈ linkedParts candidate ending,
    last.Attached part ∧ tree.SameBelow last part := by
  intro part hpart
  have hwf := h.installed.wellFormed
  obtain ⟨hattached, hsame⟩ := h.installed.keeps part hpart
  refine ⟨?_, h.old_sameBelow hretyped (h.linkedParts_attached part hpart) hsame⟩
  rcases List.mem_append.1 hpart with hchain | htail
  · -- in front of the function, and so not below it
    have hcall := h.call_attached
    refine hretyped.regrown.stays part hattached fun hmem => ?_
    rw [List.flatMap_singleton, mem_preorder_iff] at hmem
    have honce := hwf.linkedOnce.once call hcall
    rw [h.each.parts_call] at honce
    refine hwf.linkedOnce.siblings_disjoint hcall (by simp [h.each.parts_call]) h.f_mem
      (fun heq => ?_) (h.chain_keeps part hchain) hmem
    simp [heq] at honce
  · -- in the action, which the literal is over
    have hpart : part ∈ function.kept := by simpa [h.ending_eq, tail, Terminal.kept] using htail
    have haction := h.old_sameBelow hretyped h.action_attached h.action_sameBelow
    exact hretyped.regrown.new_attached.reaches
      (hretyped.reaches_action.trans (haction.reaches (h.runs.reaches part hpart)))

/-- The second change leaves the landmarks where they are. -/
theorem landmarks_typed :
    last.landmarksUpTo tree.size last.root = next.landmarksUpTo tree.size next.root := by
  obtain ⟨front, back, hbefore, hafter⟩ := hretyped.regrown.landmarks
  have hg := h.wellFormed.grounded h.action_attached
  -- those of the action are those of the function that gives way
  have hmiddle :
      (next.landmarks candidate.chain.action).filter (fun mark => mark.1.index < tree.size) =
      (next.landmarks f).filter fun mark => mark.1.index < tree.size := by
    change next.landmarksUpTo tree.size candidate.chain.action = next.landmarksUpTo tree.size f
    rw [h.each.landmarks_eq, h.runs.landmarks_eq hg, h.action_sameBelow.landmarksUpTo_eq hg,
      hg.landmarksUpTo_size]
  rw [← Tree.filter_landmarksUpTo h.installed.size_le, hafter, Tree.landmarksUpTo, hbefore,
    List.nil_append, ← Tree.flatMap_landmarks, List.flatMap_singleton, List.flatMap_singleton,
    List.filter_append, List.filter_append, List.filter_append, List.filter_append, hmiddle]

/-- Around the loop, the second change leaves everything as it is. -/
theorem grafted_typed : tree.Grafted last (foldedInto ending.fold ++ [candidate.loop])
    (inFront tree candidate ending ++ [new]) := by
  intro n hn hout
  exact (h.old_unchanged hretyped n (h.wellFormed.lt_size hn)).trans (h.installed.grafted n hn hout)

/-- The function is an argument, so that it is not what hangs at the top. -/
theorem root_typed : last.root = next.root := by
  refine hretyped.regrown.root_eq fun hmem => ?_
  have htop := h.installed.wellFormed.linkedOnce.top_unlinked call h.call_attached
  exact htop (List.mem_singleton.1 hmem ▸ h.f_mem)

/-- What the second change adds is glue as well. -/
theorem glue_typed (n : NodeId) (kind : Kind NodeId) (hle : tree.size ≤ n.index)
    (hkind : last.kind? n = some kind) : kind.isGlue = true := by
  by_cases hold : n.index < next.size
  · by_cases hcall : n = call
    · rw [hcall, hretyped.call_kind] at hkind
      cases hkind
      rfl
    · exact h.installed.glue n kind hle ((hretyped.kind?_eq n hcall hold).symm.trans hkind)
  · exact hretyped.regrown.glue n kind (Nat.le_of_not_lt hold) hkind

/-- The new literal is one of the parameter, and the call links it where it linked the function. -/
theorem encloses_typed (hedit : explicitly next plan f = .ok edit₂) (n : NodeId)
    (kind : Kind NodeId) (hn : tree.size ≤ n.index) (hkind : last.kind? n = some kind) :
    Encloses tree.size candidate.param (bareParts candidate ending) kind := by
  have hle := h.installed.size_le
  -- a node is as old as the first change, or one of the literal
  by_cases hold : n.index < next.size
  · by_cases hcall : n = call
    · obtain rfl := Option.some.inj (hretyped.call_kind.symm.trans (hcall ▸ hkind))
      refine .expr rfl rfl fun c hc => ?_
      have hc : c = chain ∨ c = lambda := by simpa [Expr.children] using hc
      rcases hc with rfl | rfl
      · -- the chain was linked before
        cases h.installed.encloses call _ h.each.call_staged h.each.call_kind with
        | layer silent undeclared slots links =>
          exact links c (by simp [Kind.children, Expr.children])
      · exact .inr (hle.trans hretyped.fresh)
    · exact h.installed.encloses n kind hn ((hretyped.kind?_eq n hcall hold).symm.trans hkind)
  · have hnew : next.size ≤ n.index := Nat.le_of_not_lt hold
    rw [hretyped.regrown.kind?_new n hnew] at hkind
    rw [← h.follows.param_eq]
    exact (Enclosed.explicitly hedit hle).of_kind? hnew hkind

theorem exists_typed_text (hlambda : last.Prints lambda (some 0) text)
    (htext : Spelling.typedFunction tree candidate.param candidate.chain.action = .ok text) :
    ∃ full, Spelling.whole tree style candidate ending true = .ok full ∧
      last.Prints new none full := by
  have hsame := h.chain_sameBelow hretyped
  have hvars : last.vars = next.vars := hretyped.regrown.committed.vars_eq
  have hgChain := hsame.grounded h.each.chain_grounded
  have hgLambda : last.Grounded lambda :=
    hretyped.regrown.wellFormed.grounded hretyped.regrown.new_attached
  have hgCall : last.Grounded call := .layer hretyped.call_kind (by
    simpa [Kind.children, Expr.children] using ⟨hgChain, hgLambda⟩)
  -- around the literal only the call is changed
  have hstmt := h.unchanged hretyped stmt h.each.stmt_kind (by simp)
  have hgStmt : last.Grounded stmt :=
    .layer hstmt (by simpa [Kind.children, Stmt.children] using hgCall)
  -- the call, the statement, and all that stands there
  have hcall := Prints.call hgCall hretyped.call_kind
    (h.each.chain_prints.congr h.each.chain_grounded hsame hvars) hlambda.all_singleton
  rw [operandText_tight, ← Spelling.call_eq] at hcall
  have hprints := Prints.exprStmt hgStmt hstmt hcall
  obtain ⟨mid, hreplaced⟩ := h.replaced
  have hfold : ending.fold = none := by rw [h.ending_eq]
  have hstands := h.stands_unchanged hretyped hreplaced.stands
  obtain ⟨full, hfull, -, hnew⟩ := hstands.exists_text h.wellFormed (fun c hc => by
    obtain ⟨⟨content, hcontent⟩, hsame⟩ := h.comments_unchanged hfold hreplaced c hc
    refine ⟨⟨content, hcontent⟩, ?_⟩
    rw [hcontent] at hsame ⊢
    exact h.unchanged hretyped c hsame (by simp)) (hvars.trans h.vars_eq) hgStmt hprints
  refine ⟨full, h.whole_eq hfold h.parent_eq ?_ hfull, hnew⟩
  rw [h.ending_eq]
  simp [Spelling.statement, h.chain_eq, htext]

/-- **The pipeline is where the loop was**, with the type of the parameter. -/
theorem installed_typed (hedit : explicitly next plan f = .ok edit₂)
    (hlambda : last.Prints lambda (some 0) text)
    (htext : Spelling.typedFunction tree candidate.param candidate.chain.action = .ok text) :
    Installed tree style candidate ending true new last where
  wellFormed := hretyped.regrown.wellFormed
  detached hloop := by
    obtain ⟨mid, hreplaced⟩ := h.replaced
    have hlt : candidate.loop.index < next.size :=
      (h.wellFormed.lt_size h.attached).trans_le hreplaced.regrown.size_le
    rcases hretyped.regrown.attached_or _ hloop hlt with hatt | hmem
    · exact h.installed.detached hatt
    · -- the loop is not below the action
      have hg := h.wellFormed.grounded h.action_attached
      rw [List.nil_append, List.flatMap_singleton, h.action_sameBelow.preorder_eq hg,
        mem_preorder_iff] at hmem
      exact h.not_reaches_loop hmem
  attached := by
    refine hretyped.regrown.stays new h.installed.attached fun hmem => ?_
    rw [List.flatMap_singleton, mem_preorder_iff] at hmem
    -- the function is below what stands there
    refine h.installed.wellFormed.linkedOnce.irrefl h.installed.attached ?_
    exact Tree.strictlyReaches_iff_last.2 ⟨call, h.reaches_call, h.f_mem⟩ |>.trans_left hmem
  size_le := h.installed.size_le.trans hretyped.regrown.size_le
  revision_eq := by
    rw [hretyped.regrown.committed.revision_eq, h.installed.revision_eq, UInt64.add_assoc]
    rfl
  vars_eq := hretyped.regrown.committed.vars_eq.trans h.installed.vars_eq
  root_eq hne := (h.root_typed hretyped).trans (h.installed.root_eq hne)
  root_eq_new heq := (h.root_typed hretyped).trans (h.installed.root_eq_new heq)
  frame n hn hno hparent :=
    (h.old_unchanged hretyped n hn).trans (h.installed.frame n hn hno hparent)
  folded_eq := h.installed.folded_eq
  glue := h.glue_typed hretyped
  encloses := h.encloses_typed hretyped hedit
  initial_new := by simp [foldedInto, h.ending_eq]
  grafted := h.grafted_typed hretyped
  inPlace := h.inPlace (h.grafted_typed hretyped)
  stands hfold := by
    obtain ⟨inBlock, stmt, call, hparent, hstands, hcall, hstaged⟩ := h.installed.stands hfold
    exact ⟨inBlock, stmt, call, hparent, h.stands_unchanged hretyped hstands,
      h.unchanged hretyped stmt hcall (by simp), hstaged⟩
  keeps := h.keeps_typed hretyped
  collects hkind := by simp [h.ends.kind_eq_of_forEach (by rw [h.ending_eq])] at hkind
  landmarks := by
    rw [h.landmarks_typed hretyped]
    exact h.installed.landmarks
  text := h.exists_typed_text hretyped hlambda htext

end Second

end Performed

end Pipeline

end LoopToStream
