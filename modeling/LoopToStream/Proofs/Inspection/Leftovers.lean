import LoopToStream.Proofs.Inspection.Applying
import LoopToStream.Proofs.Pipeline.Commuting
import LoopToStream.Proofs.Tree.Leftovers

/-!
# What is left over does not matter

Each loop that is converted leaves nodes in the table: the loop itself, the layers around its
action, function literals that have been replaced. None of them is ever read again. Inspecting a
loop in two trees with the same code has the same result, and applying the finding leaves the same
text, in trees where the new nodes have different ids (`Inspector.same_of_sameCode`).

* `SameCode.inspect_eq` — the same report, or the same reason to turn the loop down;
* `SameCode.endingOf_eq` — the same pipeline;
* `SameCode.text_eq_of_applied` — the same text.
-/

namespace LoopToStream

open Pipeline (Ends Planned endingOf given lines foldedInto FoldSite)

variable {tree tree' next next' : Tree} {loop : NodeId} {inspector : Inspector}
  {candidate : Candidate} {ending : Pipeline.Ending} {outcome outcome' : Outcome}

namespace Tree.SameCode

variable (h : tree.SameCode tree') (hwf : tree.WellFormed) (hwf' : tree'.WellFormed)
include h hwf hwf'

/-! ### Looking at a loop -/

/-- Variables are as final in the one as in the other, for bounded flow queries as well. -/
theorem sameFinality (hsize : tree.size ≤ tree'.size) (hloop : tree.Attached loop) (flow : Flow) :
    tree.SameFinality tree' flow ⟨tree.vars.size⟩ loop := by
  have hwhole := h.undisturbed hwf hwf' hsize attached_root
  exact fun v n hv hn => hwhole.sameFinality_of_root h.root_eq flow v n hv (hloop.reaches hn)

/-- A loop is a candidate in both or in none, and the report is the same. -/
theorem inspect_eq (inspector : Inspector) (hloop : tree.Attached loop) :
    inspector.candidate tree' loop = inspector.candidate tree loop ∧
      inspector.inspect tree' loop = inspector.inspect tree loop := by
  -- the roles are exchanged if the other table is the shorter one
  wlog hsize : tree.size ≤ tree'.size generalizing tree tree'
  · obtain ⟨hcandidate, hinspect⟩ := this h.symm hwf' hwf (h.attached_iff.2 hloop) (by omega)
    exact ⟨hcandidate.symm, hinspect.symm⟩
  have hundisturbed := h.undisturbed hwf hwf' hsize hloop
  have hfinal := h.sameFinality hwf hwf' hsize hloop inspector.analyzer.flow
  refine ⟨hundisturbed.candidate_eq hfinal, ?_⟩
  have hinspect := inspector.inspect_eq_of_undisturbed hundisturbed
    (fun source hsource => h.span_eq (hloop.reaches hsource)) hfinal
  rw [hinspect, h.revision_eq]
  cases hreported : inspector.inspect tree loop with
  | error refusal => rfl
  | ok finding =>
    obtain ⟨-, -, -, -, -, hrevision⟩ := Inspector.inspect_eq_ok hreported
    rw [← hrevision]
    rfl

/-! ### Planning the pipeline -/

omit hwf hwf' in
theorem foldSite {v : VarId} {collector : Collector} {fold : Fold}
    (hsite : FoldSite tree loop v collector fold) : FoldSite tree' loop v collector fold := by
  cases hsite with
  | @declared up declaration init left right type target hup hblock hhere hcreation =>
    have hdeclaration : tree.Attached declaration :=
      hup.of_mem (by simp [parts_eq_children hblock, Kind.children, Stmt.children])
    have hinit : tree.Attached init :=
      hdeclaration.of_mem (by simp [parts_eq_children hhere, Kind.children, Stmt.children])
    exact .declared (h.attached_iff.2 hup) ((h.kind?_eq hup).trans hblock)
      ((h.kind?_eq hdeclaration).trans hhere) ((h.kind?_eq hinit).trans hcreation)

/-- The same declaration is in front of a loop to fold it into. -/
theorem foldSite?_eq (hloop : tree.Attached loop) (v : VarId) :
    Pipeline.foldSite? tree' loop v = Pipeline.foldSite? tree loop v :=
  Pipeline.foldSite?_congr hwf hwf' hloop (h.attached_iff.2 hloop) fun _ _ =>
    ⟨h.symm.foldSite, h.foldSite⟩

/-- The loop becomes the same pipeline. -/
theorem endingOf_eq (hfound : Candidate.Found inspector.analyzer tree loop candidate)
    (hfound' : Candidate.Found inspector.analyzer tree' loop candidate)
    (hloop : tree.Attached loop) :
    endingOf inspector.analyzer inspector.options tree' candidate =
      endingOf inspector.analyzer inspector.options tree candidate := by
  wlog hsize : tree.size ≤ tree'.size generalizing tree tree'
  · exact (this h.symm hwf' hwf hfound' hfound (h.attached_iff.2 hloop) (by omega)).symm
  exact (h.undisturbed hwf hwf' hsize hloop).endingOf_eq hfound
    (h.sameFinality hwf hwf' hsize hloop _) _ (h.foldSite?_eq hwf hwf' hloop)

/-! ### Carrying it out -/

/-- **The same text** is left, if the loop becomes the same pipeline in both trees. -/
theorem text_eq_of_applied
    (happlied : Inspector.Applied inspector tree candidate ending outcome next)
    (happlied' : Inspector.Applied inspector tree' candidate ending outcome' next') :
    next'.text next'.root = next.text next.root := by
  -- the statement is the same for both trees, so that one of them may be taken to be the longer one
  wlog hsize : tree.size ≤ tree'.size generalizing tree tree' next next' outcome outcome'
  · exact (this h.symm hwf' hwf happlied' happlied (by omega)).symm
  obtain ⟨plan, hplanned⟩ := happlied.planned
  obtain ⟨plan', hplanned'⟩ := happlied'.planned
  have hloop := hplanned.attached
  have hundisturbed := h.undisturbed hwf hwf' hsize hloop
  have htyped : outcome'.explicitLambda = outcome.explicitLambda := by
    rw [Bool.eq_iff_iff, happlied'.typed_iff, happlied.typed_iff]
  have hroom : (tree.parent? candidate.loop).any tree'.isBlock =
      (tree.parent? candidate.loop).any tree.isBlock := by
    cases hparent : tree.parent? candidate.loop with
    | none => rfl
    | some up => exact (h.sameBelow (hwf.parent?_eq_some.1 hparent).1).isBlock_eq
  -- the pipeline is spelled the same
  obtain ⟨text, hwhole, hprints⟩ := happlied.installed.text
  obtain ⟨text', hwhole', hprints'⟩ := happlied'.installed.text
  have hspelled : Spelling.whole tree' inspector.options.collectorStyle candidate ending
      outcome.explicitLambda =
        Spelling.whole tree inspector.options.collectorStyle candidate ending
          outcome.explicitLambda :=
    hundisturbed.whole_eq hplanned.found hplanned.ends
      (fun d hd => h.sameBelow (hplanned.ends.foldedInto_attached d hd)) hroom
  rw [htyped, hspelled, hwhole] at hwhole'
  obtain rfl := Except.ok.inj hwhole'
  -- at the top there is only the pipeline; elsewhere it stands in the same lines
  by_cases hroot : candidate.loop = tree.root
  · rw [happlied.installed.root_eq_new hroot,
      happlied'.installed.root_eq_new (hroot.trans h.root_eq.symm), hprints.text_eq,
      hprints'.text_eq]
  · have hrewrite' := hplanned'.respelled happlied'.installed (h.root_eq ▸ hroot)
      (by rw [htyped, hspelled, hwhole])
    rw [Pipeline.lines_eq hundisturbed hplanned.found hplanned.ends hroom] at hrewrite'
    exact h.text_eq (hplanned.respelled happlied.installed hroot hwhole) hrewrite'

end Tree.SameCode

namespace Inspector

/-- **What is left over does not matter.** Two trees have the same code, with different nodes left
over in tables of possibly different length. Inspecting a loop in them has the same result. If there
is a finding, it can be applied in both, the same is done with it in both, and the text afterwards
is the same. -/
theorem same_of_sameCode (inspector : Inspector) {tree tree' : Tree} {loop : NodeId}
    (h : tree.SameCode tree') (hwf : tree.WellFormed) (hwf' : tree'.WellFormed)
    (hloop : tree.Attached loop) :
    inspector.inspect tree' loop = inspector.inspect tree loop ∧
      ∀ finding, inspector.inspect tree loop = .ok finding →
        ∃ outcome next outcome' next' text, inspector.apply finding tree = .ok outcome next ∧
          inspector.apply finding tree' = .ok outcome' next' ∧
          outcome'.folded = outcome.folded ∧
          outcome'.explicitLambda = outcome.explicitLambda ∧
          next.text next.root = .ok text ∧ next'.text next'.root = .ok text := by
  obtain ⟨hsame, hinspect⟩ := h.inspect_eq hwf hwf' inspector hloop
  refine ⟨hinspect, fun finding hreported => ?_⟩
  have hloop' := h.attached_iff.2 hloop
  -- the finding can be applied in both trees
  obtain ⟨candidate, ending, outcome, next, hcandidate, -, -, hending, happly, happlied⟩ :=
    exists_apply hwf ((hwf.isAttached_eq_true (hwf.lt_size hloop)).2 hloop) hreported
  obtain ⟨candidate', ending', outcome', next', hcandidate', -, -, hending', happly', happlied'⟩ :=
    exists_apply hwf' ((hwf'.isAttached_eq_true (hwf'.lt_size hloop')).2 hloop')
      (hinspect.trans hreported)
  -- it is the same candidate, and the pipeline ends in the same way
  obtain rfl := Except.ok.inj (hcandidate'.symm.trans (hsame.trans hcandidate))
  have hends : endingOf inspector.analyzer inspector.options tree' candidate' =
      endingOf inspector.analyzer inspector.options tree candidate' :=
    h.endingOf_eq hwf hwf' (Candidate.found_of_eq_ok hcandidate)
      (Candidate.found_of_eq_ok hcandidate') hloop
  obtain rfl := Except.ok.inj (hending'.symm.trans (hends.trans hending))
  have htext := happlied.installed.wellFormed.text_eq_line Tree.attached_root
  refine ⟨outcome, next, outcome', next', _, happly, happly', ?_, ?_, htext,
    (h.text_eq_of_applied hwf hwf' happlied happlied').trans htext⟩
  · -- what is reported about the change depends on the ending and on the symbols only
    rw [happlied'.folded_eq, happlied.folded_eq]
  · rw [Bool.eq_iff_iff, happlied'.typed_iff, happlied.typed_iff]

/-- `shortLoop` with nodes left over: an assignment to the collection, and a loop over it that still
links the body. -/
def litteredLoop : Tree :=
  { shortLoop with nodes := shortLoop.nodes ++ #[
      ⟨.expr (.assign none ⟨0⟩ ⟨1⟩), none, Tree.placeOf 11⟩,
      ⟨.stmt (.forEach ⟨⟨1⟩, some ⟨0⟩, some ⟨8⟩⟩), none, Tree.placeOf 12⟩] }

/-- The pipeline that the loop becomes is new in both trees, with one id in the one and another one
in the other. -/
theorem same_litteredLoop :
    ∃ finding outcome next outcome' next', (knowing []).inspect shortLoop ⟨9⟩ = .ok finding ∧
      (knowing []).inspect litteredLoop ⟨9⟩ = .ok finding ∧
      (knowing []).apply finding shortLoop = .ok outcome next ∧
      (knowing []).apply finding litteredLoop = .ok outcome' next' ∧
      outcome.replacement ≠ outcome'.replacement ∧
      next.text next.root = next'.text next'.root := by
  have hwf : shortLoop.WellFormed := .of_isInOrder (by decide)
  have hwf' : litteredLoop.WellFormed := .of_isInOrder (by decide)
  have hloop : shortLoop.Attached ⟨9⟩ := (hwf.isAttached_eq_true (by decide)).1 (by cbv)
  -- the nodes of the one tree are the first ones of the other
  have hcode : shortLoop.SameCode litteredLoop := by
    refine ⟨rfl, rfl, rfl, rfl, fun n hn => ?_⟩
    exact Array.getElem?_append_left (hwf.lt_size hn)
  obtain ⟨finding, hreported, ⟨outcome, next, happly, hid⟩, outcome', next', happly', hid'⟩ :
      ∃ finding, (knowing []).inspect shortLoop ⟨9⟩ = .ok finding ∧
        (∃ outcome next, (knowing []).apply finding shortLoop = .ok outcome next ∧
          outcome.replacement = ⟨16⟩) ∧
        ∃ outcome next, (knowing []).apply finding litteredLoop = .ok outcome next ∧
          outcome.replacement = ⟨18⟩ :=
    ⟨_, by cbv, ⟨_, _, by cbv, rfl⟩, _, _, by cbv, rfl⟩
  -- what is found and done is computed; that the texts agree is the theorem
  obtain ⟨hinspect, hsame⟩ := same_of_sameCode (knowing []) hcode hwf hwf' hloop
  obtain ⟨_, _, _, _, text, heq, heq', -, -, htext, htext'⟩ := hsame finding hreported
  cases happly.symm.trans heq
  cases happly'.symm.trans heq'
  exact ⟨finding, outcome, next, outcome', next', hreported, hinspect.trans hreported, happly,
    happly', by simp [hid, hid'], htext.trans htext'.symm⟩

end Inspector

end LoopToStream
