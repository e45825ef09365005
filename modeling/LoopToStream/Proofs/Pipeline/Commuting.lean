import LoopToStream.Proofs.Pipeline.Elsewhere
import LoopToStream.Proofs.Pipeline.Folding
import LoopToStream.Proofs.Tree.Commuting

/-!
# Pipelines beside each other

Carrying out a plan is a rewrite that is known by what it prints (`Planned.respelled`): the comments
that are saved, where there is room for them, and the pipeline as it is spelled. Beside a change,
both are the same as before (`Pipeline.lines_eq`).
-/

namespace LoopToStream

open Layout (Command)

namespace Tree

variable {tree : Tree} {n : NodeId} {text : String}

/-- A comment is known from its landmark. -/
theorem kind?_of_mark?_comment (h : tree.mark? n = some (n, .comment text)) :
    tree.kind? n = some (.comment text) := by
  obtain ⟨shape, hshape, heq⟩ := Option.map_eq_some_iff.1 h
  obtain ⟨kind, hkind, hmark⟩ := Option.bind_eq_some_iff.1 hshape
  cases heq
  rw [hkind]
  cases kind with
  | comment text' =>
    cases hmark
    rfl
  | expr e =>
    unfold Kind.mark? at hmark
    split at hmark <;> cases hmark
  | stmt s =>
    unfold Kind.mark? at hmark
    split at hmark <;> cases hmark

end Tree

namespace Pipeline

variable {analyzer : Analyzer} {tree next : Tree} {candidate : Candidate} {ending : Ending}
  {plan : Pipeline} {style : CollectorStyle} {typed : Bool} {replacement c n : NodeId}
  {text : String}

/-- The lines of a pipeline, with the comments in front of it. -/
def lines (tree : Tree) (candidate : Candidate) (ending : Ending) (text : String) : List Fragment :=
  (inFront tree candidate ending).map tree.line ++ [⟨none, [.write text]⟩]

/-- **Comments that are saved** hang in the tree afterwards, as they were. -/
theorem Installed.saved_next
    (hinstalled : Installed tree style candidate ending typed replacement next)
    (hc : c ∈ savedComments tree candidate ending) :
    next.Attached c ∧ tree.SameBelow next c := by
  obtain ⟨text, htext⟩ := Option.isSome_iff_exists.1 (mem_savedComments.1 hc).2.1
  have hkind := Tree.comment?_eq_some.1 htext
  have hmark : tree.mark? c = some (c, .comment text) := Tree.mark?_eq_of_kind? hkind
  obtain ⟨front, back, -, hafter⟩ := hinstalled.landmarks
  have hmem : (c, Kind.comment text) ∈ next.landmarksUpTo tree.size next.root := by
    rw [hafter]
    simp only [List.mem_append]
    exact .inl (.inr (.inl (List.mem_filterMap.2 ⟨c, List.mem_append_left _ hc, hmark⟩)))
  obtain ⟨hattached, hmark'⟩ := Tree.mem_landmarks.1 (List.mem_filter.1 hmem).1
  refine ⟨hattached, fun n hn => ?_⟩
  obtain rfl : c = n := by
    rcases Tree.reaches_iff.1 hn with heq | ⟨d, hd, -⟩
    · exact heq
    · simp [Tree.parts_eq_children hkind, Kind.children] at hd
  rw [Tree.kind?_of_mark?_comment hmark', hkind]

namespace Planned

variable (h : Planned analyzer tree candidate ending plan)
include h

theorem reaches_saved (hc : c ∈ savedComments tree candidate ending) :
    tree.Reaches candidate.loop c :=
  (mem_savedComments.1 hc).1.head (by simp [h.found.parts_eq])

/-- Where there is room for one statement only, one gives way for one. -/
theorem exists_exchange_eq {kind : Kind NodeId} (hn : tree.Attached n)
    (hkind : tree.kind? n = some kind) (hno : kind.stmt?.any Stmt.isBlock = false)
    (hc : c ∈ kind.children) :
    ∃ d, exchange (given candidate ending) (placed tree candidate ending replacement) c = [d] := by
  have hwf := h.wellFormed
  have hmem : c ∈ tree.parts n := Tree.parts_eq_children hkind ▸ hc
  by_cases hgiven : c ∈ given candidate ending
  · -- what a loop is folded into stands in a block with the loop
    have hblock : ¬ (tree.parent? c).any tree.isBlock = true := by
      rw [hwf.parent?_of_mem hn hmem, Option.any_some, Tree.isBlock, Tree.stmt?, hkind,
        Option.bind_some, hno]
      simp
    have hfold : ending.fold = none := by
      by_contra hfold
      obtain ⟨fold, hfold⟩ := Option.ne_none_iff_exists'.1 hfold
      obtain ⟨-, _, _, _, _, _, _, -, -, hplace, -⟩ := h.ends.exists_place hfold
      exact hblock (hplace.in_block hwf (by simpa [foldedInto, hfold] using hgiven))
    obtain rfl : c = candidate.loop := by simpa [foldedInto, hfold] using hgiven
    exact ⟨replacement, by simp [exchange, foldedInto, hfold, inFront, hblock]⟩
  · exact ⟨c, exchange_of_notMem hgiven⟩

variable (hinstalled : Installed tree style candidate ending typed replacement next)
include hinstalled

/-- **Carrying out a plan is a rewrite** that is known by what it prints. -/
theorem respelled (hne : candidate.loop ≠ tree.root)
    (hwhole : Spelling.whole tree style candidate ending typed = .ok text) :
    tree.Respelled next (given candidate ending) (placed tree candidate ending replacement)
      (lines tree candidate ending text) where
  toRevised := h.revised hinstalled hne
  vars_eq := hinstalled.vars_eq
  lines_eq := by
    obtain ⟨text', htext', hprints⟩ := hinstalled.text
    obtain rfl := Except.ok.inj (hwhole.symm.trans htext')
    -- the lines are those of the comments that stand in front, and that of the pipeline
    rw [List.map_append, List.map_singleton, hprints.line_eq, lines]
    congr 1
    refine List.map_congr_left fun c hc => ?_
    have hsaved := inFront_subset hc
    exact (hinstalled.saved_next hsaved).2.line_eq
      (h.wellFormed.grounded (h.attached.reaches (h.reaches_saved hsaved))) hinstalled.vars_eq
  placed_attached x hx := by
    rcases List.mem_append.1 hx with hx | hx
    · -- a comment has been below the loop, and so not outside
      have hsaved := inFront_subset hx
      exact ⟨(hinstalled.saved_next hsaved).1, fun hout =>
        hout.not_below candidate.loop (by simp) (h.reaches_saved hsaved)⟩
    · obtain rfl := List.mem_singleton.1 hx
      refine ⟨hinstalled.attached, fun hout => ?_⟩
      cases hfold : ending.fold with
      | none =>
        -- what stands for the loop is new
        obtain ⟨-, -, -, -, -, -, hnew⟩ := hinstalled.stands hfold
        exact Nat.not_lt.2 hnew (h.wellFormed.lt_size hout.attached)
      | some fold =>
        -- or it is the declaration, which has given way itself
        have hmem : fold.declaration ∈ foldedInto ending.fold := by simp [foldedInto, hfold]
        exact hout.notMem (hinstalled.folded_eq _ hmem ▸ List.mem_append_left _ hmem)
  room _ _ hn hkind hno _ hc := h.exists_exchange_eq hn hkind hno hc

end Planned

/-- **The comments in front of a pipeline elsewhere** are the same. -/
theorem lines_eq {hidden : VarId} {loop : NodeId} (h : tree.Undisturbed next hidden loop)
    (hfound : Candidate.Found analyzer tree loop candidate)
    (hends : Ends analyzer tree candidate ending)
    (hroom : (tree.parent? loop).any next.isBlock = (tree.parent? loop).any tree.isBlock)
    (text : String) :
    lines next candidate ending text = lines tree candidate ending text := by
  have hbody : tree.Reaches loop candidate.body := .of_mem (by simp [hfound.parts_eq])
  have hfront : inFront next candidate ending = inFront tree candidate ending := by
    rw [inFront, inFront, h.savedComments_eq hfound hends, hfound.loop_eq,
      h.parents loop h.was_attached (.refl loop), hroom]
  rw [lines, lines, hfront]
  congr 1
  refine List.map_congr_left fun c hc => ?_
  have hreach := hbody.trans (mem_savedComments.1 (inFront_subset hc)).1
  exact (h.sameBelow hreach).line_eq (h.grounded hreach) h.vars_eq

end Pipeline

end LoopToStream
