import LoopToStream.Proofs.Pipeline.Around

/-!
# What a loop can be folded into, beside a change

A loop is folded into the declaration right in front of it, where that creates an empty collection.
A change elsewhere may put statements there, or comments, or take statements away. It still makes no
difference (`Planned.foldSite?_eq`): what stands in front of a loop after the change is what stood
there before, or comes from another loop, and a loop leaves nothing behind that creates an empty
collection (`Planned.not_declares_empty`).
-/

namespace LoopToStream

/-! ### The statement in front -/

namespace Tree

variable {tree : Tree} {up d id : NodeId} {left right : List NodeId}

theorem before?_eq (hleft : id ∉ left) (hne : d ≠ id) :
    before? id (left ++ d :: id :: right) = some d := by
  induction left with
  | nil => simp [before?, hne]
  | cons first rest ih =>
    obtain ⟨hfirst, hrest⟩ := not_or.1 (List.mem_cons.not.1 hleft)
    cases rest with
    | nil => simp [before?, hne, Ne.symm hfirst]
    | cons second rest =>
      -- neither the first nor the second of the list is the one looked for, so the search goes on
      have hsecond : second ≠ id := fun heq => hrest (heq ▸ List.mem_cons_self)
      rw [List.cons_append, List.cons_append, before?, if_neg (Ne.symm hfirst), if_neg hsecond]
      exact ih hrest

theorem WellFormed.prevSibling?_eq (hwf : tree.WellFormed) (hup : tree.Attached up)
    (hblock : tree.kind? up = some (.stmt (.block (left ++ d :: id :: right)))) :
    tree.prevSibling? id = .ok (some d) := by
  have hparts : tree.parts up = left ++ d :: id :: right := parts_eq_children hblock
  have hmem : id ∈ tree.parts up := by simp [hparts]
  have hsplit : tree.parts up = (left ++ [d]) ++ id :: right := by simpa using hparts
  obtain ⟨hleft, -⟩ := hwf.linkedOnce.notMem_beside hup hsplit
  simp only [List.mem_append, List.mem_singleton, not_or] at hleft
  rw [prevSibling?, parent_of_lt (hwf.lt_size (hup.of_mem hmem)),
    hwf.parent?_of_mem hup hmem, ok_bind]
  simp [stmt?_eq_some.2 hblock, Stmt.block?, before?_eq hleft.1 (Ne.symm hleft.2)]

end Tree

namespace Pipeline

variable {analyzer : Analyzer} {tree next : Tree} {candidate : Candidate} {ending : Ending}
  {plan : Pipeline} {style : CollectorStyle} {typed : Bool} {replacement b d init up : NodeId}
  {v var : VarId} {collector : Collector} {fold : Fold} {type : ClassType}
  {target : Option MethodId} {left right stmts : List NodeId}

theorem foldSite?_eq_some (hwf : tree.WellFormed) (hb : tree.Attached b) :
    foldSite? tree b v = .ok (some (collector, fold)) ↔ FoldSite tree b v collector fold := by
  refine ⟨fun h => ?_, fun h => ?_⟩
  · obtain ⟨answer, hanswer, hsite⟩ := exists_foldSite? hwf hb v
    obtain rfl := Except.ok.inj (h.symm.trans hanswer)
    exact hsite collector fold rfl
  · cases h with
    | declared up_attached block here creation =>
      rw [foldSite?, hwf.prevSibling?_eq up_attached block, ok_bind]
      simp [Tree.kind_of_kind? here, Tree.expr?_eq_some.2 creation]

/-- In two trees with the same places to fold a loop into, the same one is found. -/
theorem foldSite?_congr (hwf : tree.WellFormed) (hnext : next.WellFormed) (hb : tree.Attached b)
    (hb' : next.Attached b)
    (h : ∀ collector fold, FoldSite next b v collector fold ↔ FoldSite tree b v collector fold) :
    foldSite? next b v = foldSite? tree b v := by
  obtain ⟨answer, hanswer, -⟩ := exists_foldSite? hwf hb v
  obtain ⟨answer', hanswer', -⟩ := exists_foldSite? hnext hb' v
  -- both searches give an answer, and the answer is a place of that sort
  have hsome : ∀ site, answer' = some site ↔ answer = some site := by
    rintro ⟨collector, fold⟩
    have htree : answer = some (collector, fold) ↔ FoldSite tree b v collector fold := by
      rw [← foldSite?_eq_some hwf hb, hanswer, Except.ok.injEq]
    have hafter : answer' = some (collector, fold) ↔ FoldSite next b v collector fold := by
      rw [← foldSite?_eq_some hnext hb', hanswer', Except.ok.injEq]
    rw [htree, hafter, h]
  rw [hanswer, hanswer', Option.ext fun site => hsome site]

namespace Planned

variable (h : Planned analyzer tree candidate ending plan)
include h

/-- What gives way stands together, so that what is behind the last of it is behind all of it. -/
theorem eq_append_given (hup : tree.Attached up) {p : NodeId} {front back : List NodeId}
    (hparts : tree.parts up = front ++ p :: b :: back) (hp : p ∈ given candidate ending)
    (hb : b ∉ given candidate ending) :
    ∃ front', tree.parts up = front' ++ given candidate ending ++ b :: back := by
  have hwf := h.wellFormed
  have hmem : p ∈ tree.parts up := by simp [hparts]
  -- no statement is in the block twice, so the places in it can be compared
  obtain ⟨hfront, hback⟩ := hwf.linkedOnce.notMem_beside hup hparts
  cases hfold : ending.fold with
  | none =>
    obtain rfl : p = candidate.loop := by simpa [foldedInto, hfold] using hp
    exact ⟨front, by simpa [foldedInto, hfold] using hparts⟩
  | some fold =>
    obtain ⟨-, up', _, left, right, _, _, -, -, hplace, -⟩ := h.ends.exists_place hfold
    -- the declaration and the loop are in the same block, and that is this one
    have hup' : up = up' := by
      refine hwf.linkedOnce.one_linker up up' p hup hplace.attached hmem (hplace.mem_parts_up ?_)
      simpa [foldedInto, hfold] using hp
    subst hup'
    have heq := hparts.symm.trans hplace.parts_up
    rcases List.mem_append.1 hp with hp | hp
    · -- behind the declaration, there is the loop
      obtain rfl : p = fold.declaration := by simpa [foldedInto, hfold] using hp
      obtain ⟨-, -, hrest⟩ := (List.append_cons_inj_of_notMem hfront hback).1 heq
      exact absurd (by simp [(List.cons.inj hrest).1]) hb
    · obtain rfl : p = candidate.loop := List.mem_singleton.1 hp
      have hsplit : front ++ candidate.loop :: b :: back =
          (left ++ [fold.declaration]) ++ candidate.loop :: right := by simpa using heq
      obtain ⟨rfl, -, -⟩ := (List.append_cons_inj_of_notMem hfront hback).1 hsplit
      exact ⟨left, by simpa [foldedInto, hfold] using hparts⟩

variable (hinstalled : Installed tree style candidate ending typed replacement next)
include hinstalled

/-- **A loop leaves no empty collection behind.** What is in its place is new and declares nothing,
or it is a declaration that is initialised with what has been collected. -/
theorem not_declares_empty
    (hhere : next.kind? replacement = some (.stmt (.declare var (some init))))
    (hcreation : next.kind? init = some (.expr (.create ⟨type, [], target⟩))) : False := by
  cases hfold : ending.fold with
  | none =>
    obtain ⟨-, -, -, -, -, -, hnew⟩ := hinstalled.stands hfold
    cases hinstalled.glue _ _ hnew hhere
  | some fold =>
    obtain ⟨accumulation, -, -, -, -, -, -, haction, -⟩ := h.ends.exists_place hfold
    have hkind : candidate.kind = .accumulation := by rw [Candidate.kind, haction]; rfl
    obtain ⟨collected, chain, -, hcall, hdeclares⟩ := hinstalled.collects hkind
    -- the initial value is a call afterwards, and no creation
    obtain ⟨_, _, -, hdeclared⟩ := hdeclares fold (by simp [hfold])
    obtain ⟨collector, hcollect⟩ := hcall.here
    rw [hhere] at hdeclared
    cases hdeclared
    rw [hcreation] at hcollect
    cases hcollect

/-- What stands in front of a loop elsewhere comes from what stood there. -/
theorem foldSite_of_next (hne : candidate.loop ≠ tree.root)
    (hb : tree.Beside (given candidate ending) b)
    (hsite : FoldSite next b v collector fold) : FoldSite tree b v collector fold := by
  have hwf := h.wellFormed
  have hnext := hinstalled.wellFormed
  have hrevised := h.revised hinstalled hne
  cases hsite with
  | @declared up d init left right type target hup hblock hhere hcreation =>
    have hparts : next.parts up = left ++ d :: b :: right := Tree.parts_eq_children hblock
    -- the block is outside of what gives way, and was a block
    have hparent := hnext.parent?_of_mem hup (c := b) (by simp [hparts])
    rw [hrevised.parent?_eq hb.toOutside] at hparent
    obtain ⟨hup', hmem⟩ := hwf.parent?_eq_some.1 hparent
    have hout := hb.toOutside.of_reaches hup' (.of_mem hmem)
    obtain ⟨kind, hkind, hgraft⟩ :=
      Option.map_eq_some_iff.1 ((hrevised.kind?_eq hout).symm.trans hblock)
    obtain ⟨stmts, rfl, hafter⟩ := Kind.eq_block_of_graft hgraft
    have hstmts : tree.parts up = stmts := Tree.parts_eq_children hkind
    obtain ⟨front, back, hsplit⟩ := List.append_of_mem (hstmts ▸ hmem)
    -- what is in front of the loop afterwards has come from what was in front of it
    have hfront : left ++ [d] = front.flatMap
        (exchange (given candidate ending) (placed tree candidate ending replacement)) := by
      have hparts' : next.parts up = (left ++ [d]) ++ b :: right := by simpa using hparts
      obtain ⟨hleft, hright⟩ := hnext.linkedOnce.notMem_beside hup hparts'
      rw [hsplit, List.flatMap_append, List.flatMap_cons, exchange_of_notMem hb.notMem,
        List.singleton_append] at hafter
      exact ((List.append_cons_inj_of_notMem hleft hright).1 (by simpa using hafter.symm)).1
    obtain rfl | ⟨front, p, rfl⟩ := front.eq_nil_or_concat
    · simp at hfront
    have hp : p ∈ tree.parts up := by simp [hstmts, hsplit]
    by_cases hgiven : p ∈ given candidate ending
    · -- the pipeline is in front of the loop, and it is no declaration of an empty collection
      exfalso
      have hparts' : tree.parts up = front ++ p :: b :: back := by simpa [hstmts] using hsplit
      obtain ⟨front', hfront'⟩ := h.eq_append_given hup' hparts' hgiven hb.notMem
      have hnodup := hwf.linkedOnce.once up hup'
      rw [hfront'] at hnodup
      rw [hstmts, hsplit] at hfront'
      rw [List.append_cancel_right hfront', ← List.append_nil (front' ++ given candidate ending),
        flatMap_exchange (by simp) (by simpa using (List.nodup_append'.1 hnodup).1),
        List.append_nil, ← List.append_assoc] at hfront
      obtain rfl : d = replacement := by simpa using (List.append_inj' hfront rfl).2
      exact h.not_declares_empty hinstalled hhere hcreation
    · -- the declaration has been there, and its initial value is where it was
      rw [List.concat_eq_append, List.flatMap_append, List.flatMap_singleton,
        exchange_of_notMem hgiven] at hfront
      obtain rfl : d = p := by simpa using (List.append_inj' hfront rfl).2
      have hd := hout.of_mem hwf h.given_attached hp hgiven
      rw [hrevised.kind?_eq hd] at hhere
      obtain ⟨kind, hkind', hgraft'⟩ := Option.map_eq_some_iff.1 hhere
      obtain ⟨init', rfl, hinit⟩ := Kind.eq_declare_of_graft hgraft'
      have hslot : (Slot.expression, init') ∈ (Kind.stmt (.declare v (some init'))).slots := by
        simp [Kind.slots, Stmt.slots]
      have hno := hrevised.notMem_of_slot hd.attached hkind' hslot (.inl rfl)
      rw [exchange_of_notMem hno, List.headD_cons] at hinit
      obtain rfl := hinit
      have hinit := hd.of_mem hwf h.given_attached (c := init')
        (by simp [Tree.parts_eq_children hkind', Kind.children, Stmt.children]) hno
      have hcreates := (hrevised.expr?_eq hinit).symm.trans (Tree.expr?_eq_some.2 hcreation)
      have hblock : tree.kind? up = some (.stmt (.block (front ++ d :: b :: back))) := by
        simpa [hsplit] using hkind
      exact .declared hup' hblock hkind' (Tree.expr?_eq_some.1 hcreates)

/-- And the other way around. -/
theorem foldSite_next (hne : candidate.loop ≠ tree.root)
    (hb : tree.Beside (given candidate ending) b)
    (hsite : FoldSite tree b v collector fold) : FoldSite next b v collector fold := by
  have hwf := h.wellFormed
  have hrevised := h.revised hinstalled hne
  cases hsite with
  | @declared up d init left right type target hup hblock hhere hcreation =>
    have hplace : tree.DeclaredInFront up d init b v left right := ⟨hup, hblock, hhere⟩
    -- the declaration and the loop behind it are apart from what gives way, so they stay neighbours
    have hd := h.beside_declaration hplace hcreation hb
    have hout := hb.toOutside.of_reaches hup (.of_mem (hplace.mem_parts_up (by simp)))
    have hafter := hrevised.kind?_eq hout
    rw [hblock, Option.map_some, Kind.graft_block, List.flatMap_append, List.flatMap_cons,
      List.flatMap_cons, exchange_of_notMem hd.notMem, exchange_of_notMem hb.notMem] at hafter
    have hinit : tree.Reaches d init := .of_mem (by simp [hplace.parts_declaration])
    exact .declared (hrevised.attached hout) hafter
      ((hrevised.sameBelow hd _ (.refl d)).trans hhere)
      ((hrevised.sameBelow hd _ hinit).trans hcreation)

/-- **What a loop elsewhere can be folded into** is the same. -/
theorem foldSite?_eq (hne : candidate.loop ≠ tree.root)
    (hb : tree.Beside (given candidate ending) b)
    (v : VarId) : foldSite? next b v = foldSite? tree b v :=
  foldSite?_congr h.wellFormed hinstalled.wellFormed hb.attached
    ((h.revised hinstalled hne).attached hb.toOutside) fun _ _ =>
      ⟨h.foldSite_of_next hinstalled hne hb, h.foldSite_next hinstalled hne hb⟩

end Planned

end Pipeline

end LoopToStream
