import LoopToStream.Proofs.Inspection.Applying
import LoopToStream.Proofs.Pipeline.Landmarks

/-!
# What becomes of comments

Applying a finding gives up most of the statements of a loop. No comment is given up with them:
`Inspector.comments_of_applied` says which comments the tree has afterwards, in which order, and
where the comments stand that have lost the code around them (`Pipeline.CommentsConserved`).
-/

namespace LoopToStream

open scoped List
namespace Pipeline

variable {analyzer : Analyzer} {tree next : Tree} {candidate : Candidate} {ending : Ending}
  {plan : Pipeline} {style : CollectorStyle} {typed : Bool} {replacement : NodeId}

namespace Planned

variable (h : Planned analyzer tree candidate ending plan)
include h

/-- A loop that is folded into a declaration stands in the block of the declaration. -/
theorem isInBlock_of_folded (hfold : ending.fold ≠ none) :
    tree.isInBlock candidate.loop = .ok true := by
  obtain ⟨fold, hsome⟩ := Option.ne_none_iff_exists'.1 hfold
  obtain ⟨-, _, _, _, _, _, _, -, -, hplace, -⟩ := h.ends.exists_place hsome
  rw [Tree.isInBlock_eq (h.wellFormed.lt_size h.attached),
    hplace.in_block h.wellFormed (by simp)]

variable (hinstalled : Installed tree style candidate ending typed replacement next)
include hinstalled

/-- **A block is made for the comments** where the loop did not stand in one. -/
theorem exists_block (hroom : tree.isInBlock candidate.loop = .ok false)
    (hsaved : savedComments tree candidate ending ≠ []) :
    tree.kind? replacement = none ∧
      ∃ stmt call, next.kind? replacement =
        some (.stmt (.block (savedComments tree candidate ending ++ [stmt]))) ∧
        next.kind? stmt = some (.stmt (.expr call)) := by
  have hfold : ending.fold = none := by
    by_contra hfold
    rw [h.isInBlock_of_folded hfold] at hroom
    cases hroom
  obtain ⟨inBlock, stmt, call, hparent, hstands, hcall, hstaged⟩ := hinstalled.stands hfold
  rw [hroom] at hparent
  cases hparent
  refine ⟨?_, stmt, call, ?_, hcall⟩
  · rw [← Option.not_isSome_iff_eq_none, Tree.kind?_isSome]
    exact Nat.not_lt.2 hstaged
  · cases hstands with
    | alone room =>
      rcases room with hin | hnone
      · cases hin
      · exact absurd hnone hsaved
    | together no_room here => exact here

end Planned

/-- **No comment is lost, duplicated or moved** out of the part that it stands in, when the loop of
a candidate has given way for `replacement`. -/
structure CommentsConserved (tree next : Tree) (candidate : Candidate) (ending : Ending)
    (replacement : NodeId) : Prop where
  /-- Afterwards there are the comments of before, each once. Comments around the loop are where
  they were. Those of the loop are the ones that are saved and, behind them, those of the parts that
  are linked, part by part and in the order that they had there. -/
  listed : ∃ front inLoop back inParts,
    tree.commentsIn tree.root = .ok (front ++ inLoop ++ back) ∧
    tree.commentsIn candidate.loop = .ok inLoop ∧
    (linkedParts candidate ending).mapM tree.commentsIn = .ok inParts ∧
    inLoop.Perm (savedComments tree candidate ending ++ inParts.flatten) ∧
    next.commentsIn next.root =
      .ok (front ++ (savedComments tree candidate ending ++ inParts.flatten) ++ back) ∧
    (front ++ (savedComments tree candidate ending ++ inParts.flatten) ++ back).Nodup
  /-- The conditions, the value and the action have no comments but those of the linked parts. -/
  inKept :
      (candidate.source :: candidate.chain.conditions ++ ending.kept).flatMap tree.commentsBelow =
    (linkedParts candidate ending).flatMap tree.commentsBelow
  /-- Comments of a part that is linked stay in it. -/
  inPart : ∀ part ∈ linkedParts candidate ending,
    next.isAttached part = .ok true ∧ next.commentsIn part = tree.commentsIn part
  /-- In a block, saved comments stand in front of what has taken the place of the loop, or of the
  declaration that the loop has been folded into. -/
  inBlock : Tree.InPlace tree next (foldedInto ending.fold ++ [candidate.loop])
    (savedComments tree candidate ending ++ [replacement])
  folded : ∀ declaration ∈ foldedInto ending.fold, declaration = replacement
  /-- Elsewhere they stand in front of the pipeline in a new block. -/
  elsewhere : tree.isInBlock candidate.loop = .ok false → savedComments tree candidate ending ≠ [] →
    tree.kind? replacement = none ∧ ∃ pipeline call,
      next.kind? replacement =
        some (.stmt (.block (savedComments tree candidate ending ++ [pipeline]))) ∧
      next.kind? pipeline = some (.stmt (.expr call))

/-- **The comments are conserved** where a pipeline has taken the place of a loop. -/
theorem Planned.commentsConserved (h : Planned analyzer tree candidate ending plan)
    (hinstalled : Installed tree style candidate ending typed replacement next) :
    CommentsConserved tree next candidate ending replacement := by
  have hwf := h.wellFormed
  have hnext := hinstalled.wellFormed
  have hg := hwf.grounded h.action_attached
  have hattached := h.linkedParts_attached
  -- the comments of the parts that are linked, part by part and as one list
  have hlist : ((linkedParts candidate ending).map tree.commentsBelow).flatten =
      (linkedParts candidate ending).flatMap tree.commentsBelow := rfl
  obtain ⟨front, back, hbefore, hafter⟩ := h.comments hinstalled
  refine {
    listed := ⟨front, _, back, (linkedParts candidate ending).map tree.commentsBelow, ?_,
      hwf.commentsIn_eq h.attached, mapM_eq_ok fun part hpart => ?_, ?_, ?_, ?_⟩
    inKept := ?_
    inPart := fun part hpart => ?_
    inBlock := hinstalled.inPlace
    folded := hinstalled.folded_eq
    elsewhere := h.exists_block hinstalled }
  · -- around the loop the comments are the same before and after
    rw [hwf.commentsIn_eq Tree.attached_root, hbefore]
  · exact hwf.commentsIn_eq (hattached part hpart)
  · rw [hlist]
    exact h.comments_perm
  · -- afterwards there are the saved ones and those of the parts that are linked
    rw [hlist, hnext.commentsIn_eq Tree.attached_root, hafter]
  · -- each of them once, since the nodes of a tree are listed once
    rw [hlist, ← hafter]
    exact List.filter_sublist.nodup (hnext.nodup_preorder Tree.attached_root)
  · -- the parts that are linked have the comments of the parts that are kept
    rw [linkedParts, tree.flatMap_commentsBelow, tree.flatMap_commentsBelow, List.flatMap_append,
      List.flatMap_append, h.ends.landmarks_kept hg, h.ends.landmarks_tail hg]
  · -- and they are the same code as before
    obtain ⟨hpart', hsame⟩ := hinstalled.keeps part hpart
    refine ⟨(hnext.isAttached_eq_true (hnext.lt_size hpart')).2 hpart', ?_⟩
    rw [hnext.commentsIn_eq hpart', hwf.commentsIn_eq (hattached part hpart),
      tree.commentsBelow_eq, next.commentsBelow_eq,
      hsame.landmarks_eq (hwf.grounded (hattached part hpart))]

end Pipeline

open Pipeline (CommentsConserved endingOf)

namespace Inspector

/-- **Applying a finding conserves comments**, whichever finding it is. -/
theorem comments_of_applied (inspector : Inspector) {tree next : Tree} {finding : Finding}
    {outcome : Outcome} (hwf : tree.WellFormed)
    (hattached : tree.isAttached finding.loop = .ok true)
    (happly : inspector.apply finding tree = .ok outcome next) :
    ∃ candidate ending, inspector.candidate tree finding.loop = .ok candidate ∧
      candidate.loop = finding.loop ∧
      endingOf inspector.analyzer inspector.options tree candidate = .ok ending ∧
      CommentsConserved tree next candidate ending outcome.replacement := by
  obtain ⟨candidate, ending, hcandidate, hloop, -, hending, happlied⟩ :=
    applied_of_apply hwf hattached happly
  obtain ⟨plan, hplanned⟩ := happlied.planned
  exact ⟨candidate, ending, hcandidate, hloop, hending,
    hplanned.commentsConserved happlied.installed⟩

/-- The comment of the short loop stands in front of the pipeline, in the block of the loop. -/
theorem comments_shortLoop :
    ∃ finding outcome next, (knowing []).apply finding shortLoop = .ok outcome next ∧
      next.commentsIn next.root = .ok [⟨7⟩] ∧
      next.kind? ⟨10⟩ = some (.stmt (.block [⟨7⟩, outcome.replacement])) := by
  obtain ⟨finding, hreported, hloop⟩ : ∃ finding, (knowing []).inspect shortLoop ⟨9⟩ = .ok finding ∧
      finding.loop = ⟨9⟩ := ⟨_, by cbv, rfl⟩
  have hwf : shortLoop.WellFormed := .of_isInOrder (by decide)
  obtain ⟨-, -, outcome, next, -, -, -, -, happly, -⟩ := exists_apply hwf (by cbv) hreported
  obtain ⟨candidate, ending, hcandidate, hcandidateLoop, hending, hconserved⟩ :=
    comments_of_applied (knowing []) hwf (by rw [hloop]; cbv) happly
  -- what is saved depends on the candidate and the ending, and these are computed
  obtain ⟨candidate', hcandidate', ending', hending', hsaved, hfold⟩ :
      ∃ candidate, (knowing []).candidate shortLoop ⟨9⟩ = .ok candidate ∧
        ∃ ending, endingOf (knowing []).analyzer (knowing []).options shortLoop candidate =
            .ok ending ∧
          Pipeline.savedComments shortLoop candidate ending = [⟨7⟩] ∧ ending.fold = none :=
    ⟨_, by cbv, _, by cbv, by cbv, rfl⟩
  rw [hloop] at hcandidate
  obtain rfl := Except.ok.inj (hcandidate.symm.trans hcandidate')
  obtain rfl := Except.ok.inj (hending.symm.trans hending')
  obtain ⟨front, inLoop, back, inParts, hbefore, hinLoop, -, hperm, hafter, -⟩ := hconserved.listed
  -- the tree has one comment, which is in the loop and is saved
  obtain rfl : [⟨7⟩] = inLoop := by
    rw [hcandidateLoop, hloop] at hinLoop
    exact Except.ok.inj (Eq.trans (by cbv) hinLoop)
  have hall : [⟨7⟩] = front ++ [⟨7⟩] ++ back := Except.ok.inj (Eq.trans (by cbv) hbefore)
  have hlength := congrArg List.length hall
  have hparts := hperm.length_eq
  simp only [hsaved, List.length_append, List.length_singleton] at hlength hparts
  rw [List.length_eq_zero_iff.1 (by omega : front.length = 0),
    List.length_eq_zero_iff.1 (by omega : back.length = 0),
    List.length_eq_zero_iff.1 (by omega : inParts.flatten.length = 0), hsaved] at hafter
  -- and it stands in the block of the loop, in front of the statement
  have hplace := hconserved.inBlock ⟨10⟩ [] [] (.refl _)
    (by rw [hfold, hcandidateLoop, hloop]; rfl)
  rw [hsaved] at hplace
  exact ⟨finding, outcome, next, happly, hafter, hplace⟩

end Inspector

end LoopToStream
