import LoopToStream.Proofs.Pipeline.Declaring
import LoopToStream.Proofs.Pipeline.Landmarks
import LoopToStream.Proofs.Tree.Around

/-!
# What a pipeline leaves alone

Carrying out a plan is a rewrite (`Planned.revised`): the loop, and the declaration that it is
folded into, give way for the pipeline. Code that is beside both is left alone
(`Planned.undisturbed`).

The part of this that is not about the code itself is about variables. A plan gives up statements of
the loop and adds function literals, so the declarations and the writes of the whole tree have to be
compared, and they are landmarks: the lists of landmarks before and after are known
(`Planned.marks`), and they differ in comments and in the loop itself.
-/

namespace LoopToStream

open LoopToStream.Tree (mem_preorder_iff)

/-! ### A declaration in front of a loop -/

namespace Tree.DeclaredInFront

variable {tree : Tree} {up up' declaration init loop loop' n : NodeId} {var var' : VarId}
    {type : ClassType}
  {target : Option MethodId} {left right left' right' : List NodeId} {init' : NodeId}
  (h : tree.DeclaredInFront up declaration init loop var left right)
include h

/-- A creation without arguments is all that is below the declaration. -/
theorem eq_of_reaches (hcreation : tree.kind? init = some (.expr (.create ⟨type, [], target⟩)))
    (hn : tree.Reaches declaration n) : n = declaration ∨ n = init := by
  rcases reaches_iff.1 hn with rfl | ⟨c, hc, hcn⟩
  · exact .inl rfl
  · obtain rfl : c = init := by simpa [h.parts_declaration] using hc
    rcases reaches_iff.1 hcn with rfl | ⟨d, hd, -⟩
    · exact .inr rfl
    · simp [parts_eq_children hcreation, Kind.children, Expr.children] at hd

/-- What is above the declaration is above the loop. -/
theorem reaches_loop (hwf : tree.WellFormed) (hn : tree.Attached n)
    (hreach : tree.Reaches n declaration) (hne : n ≠ declaration) : tree.Reaches n loop := by
  rcases Relation.ReflTransGen.cases_tail hreach with rfl | ⟨p, hnp, hp⟩
  · exact absurd rfl hne
  · obtain rfl := hwf.linkedOnce.one_linker p up declaration (hn.reaches hnp) h.attached hp
      (h.mem_parts_up (by simp))
    exact Reaches.tail hnp (h.mem_parts_up (by simp))

/-- A declaration stands in front of one loop. -/
theorem loop_unique (hwf : tree.WellFormed)
    (h' : tree.DeclaredInFront up' declaration init' loop' var' left' right') : loop' = loop := by
  obtain rfl := hwf.linkedOnce.one_linker up up' declaration h.attached h'.attached
    (h.mem_parts_up (by simp)) (h'.mem_parts_up (by simp))
  obtain ⟨hleft, hright⟩ := hwf.linkedOnce.notMem_beside h.attached h.parts_up
  obtain ⟨-, -, hrest⟩ := (List.append_cons_inj_of_notMem hleft hright).1
    (h.parts_up.symm.trans h'.parts_up)
  exact (List.cons.inj hrest).1.symm

end Tree.DeclaredInFront

/-! ### Variables and landmarks -/

/-- The landmark declares a variable. -/
def Landmark.declares (v : VarId) (mark : Landmark) : Bool :=
  Tree.declares v (mark.2.map fun _ => ⟨0⟩)

namespace Tree

variable {tree next : Tree} {a n : NodeId} {v : VarId} {mark : Landmark}

theorem mem_landmarks :
    mark ∈ tree.landmarks a ↔ tree.Reaches a mark.1 ∧ tree.mark? mark.1 = some mark :=
  ⟨reaches_of_mem_landmarks, fun ⟨hreach, hmark⟩ =>
    List.mem_filterMap.2 ⟨mark.1, mem_preorder_iff.2 hreach, hmark⟩⟩

theorem WellFormed.nodup_landmarks (hwf : tree.WellFormed) : (tree.landmarks tree.root).Nodup := by
  refine (hwf.nodup_preorder attached_root).filterMap fun m n mark hm hn => ?_
  obtain ⟨shape, -, rfl⟩ := Option.map_eq_some_iff.1 hm
  obtain ⟨shape', -, heq⟩ := Option.map_eq_some_iff.1 hn
  exact (Prod.mk.inj heq).1.symm

theorem any_declares_eq (tree : Tree) (v : VarId) (n : NodeId) :
    (tree.kind? n).any (declares v) = (tree.mark? n).any (Landmark.declares v) := by
  cases hkind : tree.kind? n with
  | none => simp [mark?, hkind]
  | some kind =>
    rw [mark?_eq_of_kind? hkind]
    cases kind with
    | comment text => rfl
    | expr e => cases e <;> rfl
    | stmt s =>
      cases s <;> simp [Kind.mark?, Kind.isLandmark, Kind.shape, Kind.map, Stmt.map,
        Landmark.declares, declares, Function.comp_def]

end Tree

namespace Pipeline

variable {analyzer : Analyzer} {tree next : Tree} {candidate : Candidate} {ending : Ending}
  {plan : Pipeline} {style : CollectorStyle} {typed : Bool} {replacement a b d n : NodeId}
  {s : Stmt NodeId} {v : VarId}

/-- The statements that a pipeline takes the place of. -/
abbrev given (candidate : Candidate) (ending : Ending) : List NodeId :=
  foldedInto ending.fold ++ [candidate.loop]

/-- What is put in their place. -/
abbrev placed (tree : Tree) (candidate : Candidate) (ending : Ending) (replacement : NodeId) :
    List NodeId :=
  inFront tree candidate ending ++ [replacement]

namespace Planned

variable (h : Planned analyzer tree candidate ending plan)
include h

theorem given_attached : ∀ g ∈ given candidate ending, tree.Attached g := by
  intro g hg
  rcases List.mem_append.1 hg with hg | hg
  · exact h.ends.foldedInto_attached g hg
  · exact List.mem_singleton.1 hg ▸ h.attached

theorem given_stmt :
    ∀ g ∈ given candidate ending, ∃ s, tree.kind? g = some (.stmt s) ∧ s.isBlock = false := by
  intro g hg
  rcases List.mem_append.1 hg with hg | hg
  · obtain ⟨fold, hfold, rfl⟩ := mem_foldedInto.1 hg
    obtain ⟨-, _, _, _, _, _, _, -, -, hplace, -⟩ := h.ends.exists_place hfold
    exact ⟨_, hplace.declares, rfl⟩
  · exact List.mem_singleton.1 hg ▸ ⟨_, h.found.kind?_eq, rfl⟩

/-- **A statement beside the loop** is beside all that gives way, if the loop is not folded into it.
-/
theorem beside (ha : tree.Attached a) (hstmt : tree.kind? a = some (.stmt s))
    (hno : a ∉ foldedInto ending.fold) (hbelow : ¬ tree.Reaches candidate.loop a)
    (habove : ¬ tree.Reaches a candidate.loop) : tree.Beside (given candidate ending) a := by
  refine ⟨⟨ha, fun g hg hreach => ?_⟩, fun g hg hreach => ?_⟩
  · rcases List.mem_append.1 hg with hg | hg
    · obtain ⟨fold, hfold, rfl⟩ := mem_foldedInto.1 hg
      obtain ⟨-, _, _, _, _, _, _, -, -, hplace, hcreation⟩ := h.ends.exists_place hfold
      rcases hplace.eq_of_reaches hcreation hreach with rfl | rfl
      · exact hno hg
      · rw [hcreation] at hstmt
        cases hstmt
    · exact hbelow (List.mem_singleton.1 hg ▸ hreach)
  · rcases List.mem_append.1 hg with hg | hg
    · obtain ⟨fold, hfold, rfl⟩ := mem_foldedInto.1 hg
      obtain ⟨-, _, _, _, _, _, _, -, -, hplace, -⟩ := h.ends.exists_place hfold
      exact habove (hplace.reaches_loop h.wellFormed ha hreach fun heq => hno (heq ▸ hg))
    · exact habove (List.mem_singleton.1 hg ▸ hreach)

/-- So is another loop beside the loop. -/
theorem beside_loop {loop : ForEach NodeId} (hb : tree.Attached b)
    (hloop : tree.forEach? b = some loop) (hbelow : ¬ tree.Reaches candidate.loop b)
    (habove : ¬ tree.Reaches b candidate.loop) :
    tree.Beside (given candidate ending) b := by
  have hkind := Tree.forEach?_eq_some.1 hloop
  refine h.beside hb hkind (fun hmem => ?_) hbelow habove
  obtain ⟨fold, hfold, rfl⟩ := mem_foldedInto.1 hmem
  obtain ⟨-, _, _, _, _, _, _, -, -, hplace, -⟩ := h.ends.exists_place hfold
  rw [hplace.declares] at hkind
  cases hkind

/-- And so is a declaration in front of that loop. -/
theorem beside_declaration {up init : NodeId} {var : VarId} {left right : List NodeId}
    {type : ClassType} {target : Option MethodId}
    (hplace : tree.DeclaredInFront up d init b var left right)
    (hcreation : tree.kind? init = some (.expr (.create ⟨type, [], target⟩)))
    (hb : tree.Beside (given candidate ending) b) : tree.Beside (given candidate ending) d := by
  have hwf := h.wellFormed
  have hloop : candidate.loop ∈ given candidate ending := by simp
  have hkind := h.found.kind?_eq
  have hne : candidate.loop ≠ b := fun heq => hb.notMem (heq ▸ hloop)
  refine h.beside hplace.declaration_attached hplace.declares (fun hmem => ?_) (fun hreach => ?_)
    fun hreach => ?_
  · -- were it the declaration of this fold, the loops behind it would be the same
    obtain ⟨fold, hfold, rfl⟩ := mem_foldedInto.1 hmem
    obtain ⟨-, _, _, _, _, _, _, -, -, hplace', -⟩ := h.ends.exists_place hfold
    exact hne (hplace.loop_unique hwf hplace')
  · -- a declaration below the loop has the loop behind it below as well
    refine hb.not_below _ hloop (hplace.reaches_loop hwf h.attached hreach fun heq => ?_)
    rw [heq, hplace.declares] at hkind
    cases hkind
  · -- below a declaration there is its initial value only, and the loop is neither
    rcases hplace.eq_of_reaches hcreation hreach with heq | heq
    · rw [heq, hplace.declares] at hkind
      cases hkind
    · rw [heq, hcreation] at hkind
      cases hkind

/-- **What two pipelines take the place of** is beside each other, if their loops are. -/
theorem given_beside {analyzer' : Analyzer} {candidate' : Candidate} {ending' : Ending}
    {plan' : Pipeline} (h' : Planned analyzer' tree candidate' ending' plan')
    (hbelow : ¬ tree.Reaches candidate.loop candidate'.loop)
    (habove : ¬ tree.Reaches candidate'.loop candidate.loop) :
    ∀ g ∈ given candidate' ending', tree.Beside (given candidate ending) g := by
  have hloop := h.beside_loop h'.attached h'.found.forEach hbelow habove
  intro g hg
  rcases List.mem_append.1 hg with hg | hg
  · obtain ⟨fold, hfold, rfl⟩ := mem_foldedInto.1 hg
    obtain ⟨-, _, _, _, _, _, _, -, -, hplace, hcreation⟩ := h'.ends.exists_place hfold
    exact h.beside_declaration hplace hcreation hloop
  · exact List.mem_singleton.1 hg ▸ hloop

variable (hinstalled : Installed tree style candidate ending typed replacement next)
include hinstalled

/-- **Carrying out a plan is a rewrite.** -/
theorem revised (hne : candidate.loop ≠ tree.root) :
    tree.Revised next (given candidate ending) (placed tree candidate ending replacement) where
  before := h.wellFormed
  after := hinstalled.wellFormed
  root_eq := hinstalled.root_eq hne
  root_notMem hmem := by
    rcases List.mem_append.1 hmem with hmem | hmem
    · obtain ⟨fold, hfold, heq⟩ := mem_foldedInto.1 hmem
      obtain ⟨-, up, _, _, _, _, _, -, -, hplace, -⟩ := h.ends.exists_place hfold
      exact h.wellFormed.linkedOnce.top_unlinked up hplace.attached
        (heq ▸ hplace.mem_parts_up (by simp))
    · exact hne (List.mem_singleton.1 hmem).symm
  given_attached := h.given_attached
  given_stmt := h.given_stmt
  grafted := hinstalled.grafted

/-! ### Variables -/

/-- A landmark of afterwards is an expression outside of what has given way, or in a part that is
kept, if it is an expression at all. -/
theorem outside_or_kept {mark : Landmark} (hmark : mark ∈ next.landmarksUpTo tree.size next.root)
    (hexpr : mark.2.expr?.isSome = true) :
    tree.Outside (given candidate ending) mark.1 ∨
      ∃ part ∈ linkedParts candidate ending, tree.Reaches part mark.1 := by
  obtain ⟨front, back, hbefore, hafter⟩ := hinstalled.landmarks
  have hnodup := h.wellFormed.nodup_landmarks
  rw [hbefore] at hnodup
  -- around what gives way, there is nothing of it
  have hout : mark ∈ front ∨ mark ∈ back → tree.Outside (given candidate ending) mark.1 := by
    intro hmem
    have hroot : mark ∈ tree.landmarks tree.root := by
      rw [hbefore]
      rcases hmem with hmem | hmem <;> simp [hmem]
    obtain ⟨hattached, hhere⟩ := Tree.mem_landmarks.1 hroot
    refine ⟨hattached, fun g hg hreach => ?_⟩
    have hmid : mark ∈ (given candidate ending).flatMap tree.landmarks :=
      List.mem_flatMap.2 ⟨g, hg, Tree.mem_landmarks.2 ⟨hreach, hhere⟩⟩
    obtain ⟨hfront, -, hback⟩ := List.nodup_append'.1 hnodup
    rcases hmem with hmem | hmem
    · exact (List.nodup_append'.1 hfront).2.2 hmem hmid
    · exact hback (List.mem_append_right _ hmid) hmem
  -- what is in front of the parts that are kept is no expression
  have hno : mark ∉ (savedComments tree candidate ending ++ foldedInto ending.fold).filterMap
      tree.mark? := by
    intro hmem
    obtain ⟨n, hn, hhere⟩ := List.mem_filterMap.1 hmem
    rcases List.mem_append.1 hn with hn | hn
    · -- a comment that has been saved
      have hcomment := (mem_savedComments.1 hn).2.1
      rw [tree.isSome_comment?_eq, hhere] at hcomment
      obtain ⟨id, kind⟩ := mark
      cases kind with
      | expr e => cases hcomment
      | _ => cases hexpr
    · -- or the declaration that is folded into
      obtain ⟨fold, hfold, rfl⟩ := mem_foldedInto.1 hn
      obtain ⟨-, _, _, _, _, _, _, -, -, hplace, -⟩ := h.ends.exists_place hfold
      rw [Tree.mark?_eq_of_kind? hplace.declares] at hhere
      cases hhere
      cases hexpr
  rw [hafter] at hmark
  simp only [List.mem_append] at hmark
  -- around, in front, in a part that is kept, or around again
  rcases hmark with (hmark | hmark | hmark) | hmark
  · exact .inl (hout (.inl hmark))
  · exact absurd (by simpa [List.filterMap_append] using hmark) hno
  · obtain ⟨part, hpart, hmark⟩ := List.mem_flatMap.1 hmark
    exact .inr ⟨part, hpart, (Tree.mem_landmarks.1 hmark).1⟩
  · exact .inl (hout (.inr hmark))

/-- **Variables are written where they were.** -/
theorem writeSites_eq (hne : candidate.loop ≠ tree.root) (v : VarId) :
    next.writeSites v = tree.writeSites v := by
  let writes (of : Tree) (mark : Landmark) : Bool := mark.2.expr?.isSome && of.writesTo v mark.1
  obtain ⟨front, back, hbefore, hafter⟩ :=
    h.marks hinstalled (writes tree) fun ⟨id, kind⟩ hcomment => by
    cases kind with
    | comment text => rfl
    | _ => cases hcomment
  -- the loop itself does not write
  have hloop : (tree.mark? candidate.loop).toList.filter (writes tree) = [] := by
    rw [h.mark?_loop]
    rfl
  have hsame : (next.landmarksUpTo tree.size next.root).filter (writes next) =
      (next.landmarksUpTo tree.size next.root).filter (writes tree) := by
    refine List.filter_congr fun mark hmark => ?_
    cases hexpr : mark.2.expr?.isSome with
    | false => simp [writes, hexpr]
    | true =>
      -- what a node writes to is found below it, and that has stayed as it was
      have heq : next.writesTo v mark.1 = tree.writesTo v mark.1 := by
        rcases h.outside_or_kept hinstalled hmark hexpr with hout | ⟨part, hpart, hreach⟩
        · exact (h.revised hinstalled hne).writesTo_eq hout v
        · have hg := h.wellFormed.grounded (h.linkedParts_attached part hpart)
          exact ((hinstalled.keeps part hpart).2.of_reaches hreach).writesTo_eq
            (hg.of_reaches hreach) v
      simp [writes, hexpr, heq]
  -- what is new does not write
  have hnew : ∀ n : NodeId, tree.size ≤ n.index → next.writesTo v n = false := fun n hn => by
    by_contra hwrites
    obtain ⟨target, htarget⟩ := Tree.writtenAt?_of_writesTo (by simpa using hwrites)
    obtain ⟨e, hkind, -, -, hglue⟩ := (Tree.writtenAt?_eq_some.1 htarget).exists_expr
    rw [hinstalled.glue n _ hn hkind] at hglue
    cases hglue
  rw [Tree.writeSites, Tree.writeSites, Tree.filter_eq_marksUpTo (next.writesTo_eq_any v) hnew,
    Tree.filter_eq_marks (tree.writesTo_eq_any v), ← Tree.landmarks]
  change ((next.landmarksUpTo tree.size next.root).filter (writes next)).map Prod.fst =
    ((tree.landmarks tree.root).filter (writes tree)).map Prod.fst
  rw [hsame, hafter, hbefore, hloop, List.append_nil]

variable (hextends : Extends candidate.param tree next)
include hextends

/-- **Another variable is declared where it was.** -/
theorem declarationOf?_eq (hv : v ≠ candidate.param) :
    next.declarationOf? v = tree.declarationOf? v := by
  obtain ⟨front, back, hbefore, hafter⟩ := h.marks hinstalled (Landmark.declares v)
    fun ⟨id, kind⟩ hcomment => by
      cases kind with
      | comment text => rfl
      | _ => cases hcomment
  -- the loop declares its parameter, which is another variable
  have hloop : (tree.mark? candidate.loop).toList.filter (Landmark.declares v) = [] := by
    rw [h.mark?_loop]
    simp [Landmark.declares, Tree.declares, Kind.map, Stmt.map, hv.symm]
  -- and so do the literals that are new
  have hnew : ∀ n : NodeId, tree.size ≤ n.index → (next.kind? n).any (Tree.declares v) = false :=
    fun n hn => by
      by_contra hdeclares
      exact hv (hextends.declares_new n v hn (by simpa using hdeclares))
  -- so the same nodes declare the variable, in the same order
  have hlist : (next.preorder next.root).filter (fun n => (next.kind? n).any (Tree.declares v)) =
      (tree.preorder tree.root).filter fun n => (tree.kind? n).any (Tree.declares v) := by
    rw [Tree.filter_eq_marksUpTo (next.any_declares_eq v) hnew,
      Tree.filter_eq_marks (tree.any_declares_eq v), ← Tree.landmarks, hafter, hbefore, hloop,
      List.append_nil]
  rw [h.wellFormed.declarationOf?_eq, hinstalled.wellFormed.declarationOf?_eq, ← List.head?_filter,
    ← List.head?_filter, hlist]

theorem hasInitialValue?_eq (hv : v ≠ candidate.param) :
    Flow.hasInitialValue? next v = Flow.hasInitialValue? tree v := by
  rw [Tree.hasInitialValue?_eq, Tree.hasInitialValue?_eq,
    h.declarationOf?_eq hinstalled hextends hv]
  refine bind_congr_of_ok fun declaration? hdeclaration => ?_
  cases declaration? with
  | none => rfl
  | some declaration =>
    rw [h.wellFormed.declarationOf?_eq] at hdeclaration
    have hmem := List.mem_of_find?_eq_some (Except.ok.inj hdeclaration)
    have hlt := h.wellFormed.lt_size (Tree.attached_iff_mem_preorder.2 hmem)
    dsimp only
    rw [hextends.outline_eq declaration hlt]

/-! ### Code beside the loop -/

/-- **Code that is beside what gives way is left alone**, if it does not mention the parameter of
the loop. -/
theorem undisturbed (ha : tree.Beside (given candidate ending) a)
    (hunmentioned : ∀ n, tree.Reaches a n → (tree.expr? n).bind Expr.var? ≠ some candidate.param) :
    tree.Undisturbed next candidate.param a := by
  -- nothing is beside the root
  have hne : candidate.loop ≠ tree.root := fun heq =>
    ha.not_below candidate.loop (by simp) (heq ▸ ha.attached)
  have hrevised := h.revised hinstalled hne
  refine {
    before := h.wellFormed
    after := hinstalled.wellFormed
    size_le := hinstalled.size_le
    vars_eq := hinstalled.vars_eq
    scope_eq := hextends.scope_eq
    was_attached := ha.attached
    attached := hrevised.attached ha.toOutside
    same := hrevised.sameBelow ha
    unmentioned := hunmentioned
    parents := fun n hn hna => hrevised.parent?_eq (ha.toOutside.of_reaches hn hna)
    labels := fun n label hn _ =>
      Tree.isJumpTarget_congr (hextends.outline_eq n (h.wellFormed.lt_size hn)) _
    declarations := fun v hv => ⟨h.declarationOf?_eq hinstalled hextends hv,
      h.hasInitialValue?_eq hinstalled hextends hv⟩
    writes := fun v _ => h.writeSites_eq hinstalled hne v }

end Planned

end Pipeline

end LoopToStream
