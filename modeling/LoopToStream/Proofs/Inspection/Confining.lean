import LoopToStream.Proofs.Inspection.Commuting

/-!
# How far a rewrite reaches

Applying a finding stages nodes, writes through the slots of parents that are looked up along links,
and may do so a second time. All the same it changes the tree in one place (`Confined`): the parent
of the loop links the new statement where it linked the loop, and the declaration that a loop is
folded into has another initial value. The other nodes that were there are what they were, also
those that no longer hang in the tree.

* `Relinks` — the layer of the parent, before and after: the slot of the loop holds the new
  statement, or is gone where the loop is folded into a declaration, and comments may stand in
  front.
* `Applied.exists_relinks` — why it changes in this way and no other, from what the change grafts.
* `Applied.kind?_eq` — the other layers are the same. What is printed is read of the layers below,
  so that code that contains neither the loop nor such a declaration prints as before
  (`Applied.sameBelow`).
* `Inspector.confined_of_apply` — the two together, for any finding that is applied.
-/

namespace LoopToStream

open Pipeline (foldedInto inFront mem_foldedInto mem_savedComments)

variable {tree next : Tree} {up n a : NodeId} {kind : Kind NodeId} {outcome : Outcome}

/-! ### What may change -/

/-- **The layer that links a loop**, before and after the loop gives way. -/
inductive Relinks (loop : NodeId) (outcome : Outcome) (comments : List NodeId) :
    Kind NodeId → Kind NodeId → Prop
  /-- In a block, the new statement takes the slot of the loop, with comments in front of it. -/
  | inBlock {left right : List NodeId} (not_folded : outcome.folded = false) :
      Relinks loop outcome comments (.stmt (.block (left ++ loop :: right)))
        (.stmt (.block (left ++ comments ++ outcome.replacement :: right)))
  /-- Elsewhere a slot has room for the new statement alone. -/
  | inSlot {kind : Kind NodeId} (not_folded : outcome.folded = false)
      (no_block : kind.stmt?.any Stmt.isBlock = false) :
      Relinks loop outcome comments kind
        (kind.map fun c => if c = loop then outcome.replacement else c)
  /-- The slot of a loop goes that is folded into the declaration in front of it. -/
  | folded {left right : List NodeId} (is_folded : outcome.folded = true) :
      Relinks loop outcome comments (.stmt (.block (left ++ outcome.replacement :: loop :: right)))
        (.stmt (.block (left ++ comments ++ outcome.replacement :: right)))

/-- **A change that is confined to a loop.** -/
structure Confined (tree next : Tree) (loop : NodeId) (outcome : Outcome) : Prop where
  size_le : tree.size ≤ next.size
  vars_eq : next.vars = tree.vars
  scope_eq : next.scope = tree.scope
  root_eq : next.root = if loop = tree.root then outcome.replacement else tree.root
  span_eq : ∀ n, n.index < tree.size → next.span n = tree.span n
  /-- A node keeps its layer, unless it is the parent of the loop or what the loop is folded into.
  -/
  kind?_eq : ∀ n, n.index < tree.size → tree.parent? loop ≠ some n →
    ¬ (outcome.folded = true ∧ n = outcome.replacement) → next.kind? n = tree.kind? n
  /-- The parent links what it linked but for the loop, and comments of the loop that are in no part
  of the new statement. -/
  parent : ∀ up, tree.parent? loop = some up → ∃ kind kind' comments,
    tree.kind? up = some kind ∧ next.kind? up = some kind' ∧
    Relinks loop outcome comments kind kind' ∧
    ∀ c ∈ comments, tree.Reaches loop c ∧ (∃ text, tree.kind? c = some (.comment text)) ∧
      ¬ next.Reaches outcome.replacement c
  /-- A loop is folded into the initial value of a declaration beside it. -/
  declaration : outcome.folded = true → ∃ up v init collected, tree.parent? loop = some up ∧
    tree.kind? outcome.replacement = some (.stmt (.declare v (some init))) ∧
    next.kind? outcome.replacement = some (.stmt (.declare v (some collected)))
  /-- Otherwise the statement in its place is new. -/
  fresh : outcome.folded = false → tree.size ≤ outcome.replacement.index
  /-- Code that contains neither of the two prints as before, in any layout. -/
  source_eq : ∀ a, tree.Attached a → ¬ tree.Reaches a loop →
    (outcome.folded = true → ¬ tree.Reaches a outcome.replacement) → ∀ options showIds,
    ∃ text, tree.source options showIds a = .ok text ∧ next.source options showIds a = .ok text

/-! ### The place of the loop -/

/-- What stands in front of a part has nothing below in common with it. -/
theorem Tree.LinkedOnce.not_reaches_front (h : tree.LinkedOnce) (hup : tree.Attached up)
    {front right : List NodeId} (hparts : tree.parts up = front ++ n :: right) :
    ∀ c ∈ front, ¬ tree.Reaches n c := by
  intro c hc
  have hne : c ≠ n := fun heq => (h.notMem_beside hup hparts).1 (heq ▸ hc)
  exact h.siblings_disjoint hup (by simp [hparts, hc]) (by simp [hparts]) hne (.refl c)

namespace Inspector.Applied

variable {inspector : Inspector} {candidate : Candidate} {ending : Pipeline.Ending}
  (h : Applied inspector tree candidate ending outcome next)
include h

theorem fold_eq_none (hfolded : outcome.folded = false) : ending.fold = none := by
  rw [h.folded_eq] at hfolded
  simpa using hfolded

/-- **What a loop is folded into** is a declaration in front of it, which gets another initial
value. -/
theorem exists_declaration (hfolded : outcome.folded = true) :
    ∃ block v init collected left right,
      tree.DeclaredInFront block outcome.replacement init candidate.loop v left right ∧
      next.kind? outcome.replacement = some (.stmt (.declare v (some collected))) ∧
      foldedInto ending.fold = [outcome.replacement] := by
  obtain ⟨plan, hplanned⟩ := h.planned
  rw [h.folded_eq] at hfolded
  obtain ⟨fold, hfold⟩ := Option.isSome_iff_exists.1 hfolded
  obtain ⟨accumulation, block, v, left, right, _, _, haction, -, hplace, -⟩ :=
    hplanned.ends.exists_place hfold
  obtain ⟨collected, -, -, -, hdeclares⟩ := h.installed.collects (by
    simp [Candidate.kind, haction, LoopAction.kind])
  -- the layer of the declaration is known before and afterwards
  obtain ⟨v', init, hbefore, hafter⟩ := hdeclares fold hfold
  have heq : fold.declaration = outcome.replacement :=
    h.installed.folded_eq _ (mem_foldedInto.2 ⟨fold, hfold, rfl⟩)
  rw [hplace.declares] at hbefore
  cases hbefore
  exact ⟨block, v, _, collected, left, right, heq ▸ hplace, hafter,
    by simp [foldedInto, hfold, heq]⟩

/-- The parent of the loop is outside of all that gives way. -/
theorem outside_parent (hup : tree.Attached up) (hloop : candidate.loop ∈ tree.parts up) :
    tree.Outside (Pipeline.given candidate ending) up := by
  obtain ⟨plan, hplanned⟩ := h.planned
  have hwf := hplanned.wellFormed
  refine ⟨hup, fun g hg hreach => ?_⟩
  -- what gives way is in the list of the parent, and so strictly below it
  have hmem : g ∈ tree.parts up := by
    rcases List.mem_append.1 hg with hg | hg
    · obtain ⟨fold, hfold, rfl⟩ := mem_foldedInto.1 hg
      obtain ⟨-, block, _, _, _, _, _, -, -, hplace, -⟩ := hplanned.ends.exists_place hfold
      obtain rfl := hwf.linkedOnce.one_linker up block _ hup hplace.attached hloop
        (hplace.mem_parts_up (by simp))
      exact hplace.mem_parts_up (by simp)
    · exact List.mem_singleton.1 hg ▸ hloop
  exact hwf.linkedOnce.irrefl hup (Tree.strictlyReaches_iff.2 ⟨g, hmem, hreach⟩)

/-- The change is a rewrite, as a loop that is linked is not the top. -/
theorem revised (hup : tree.Attached up) (hloop : candidate.loop ∈ tree.parts up) :
    tree.Revised next (Pipeline.given candidate ending)
      (Pipeline.placed tree candidate ending outcome.replacement) := by
  obtain ⟨plan, hplanned⟩ := h.planned
  refine hplanned.revised h.installed fun heq => ?_
  exact hplanned.wellFormed.linkedOnce.top_unlinked up hup (heq ▸ hloop)

/-- Where there is no room for comments, none are put in front. -/
theorem inFront_eq_nil (hup : tree.Attached up) (hloop : candidate.loop ∈ tree.parts up)
    (hkind : tree.kind? up = some kind) (hno : kind.stmt?.any Stmt.isBlock = false) :
    inFront tree candidate ending = [] := by
  obtain ⟨plan, hplanned⟩ := h.planned
  have hroom : (tree.parent? candidate.loop).any tree.isBlock = false := by
    rw [hplanned.wellFormed.parent?_of_mem hup hloop, Option.any_some, Tree.isBlock, Tree.stmt?,
      hkind]
    exact hno
  simp [inFront, hroom]

/-- **The layer that links the loop** links what has taken its place. -/
theorem exists_relinks (hup : tree.Attached up) (hloop : candidate.loop ∈ tree.parts up) :
    ∃ kind kind', tree.kind? up = some kind ∧ next.kind? up = some kind' ∧
      Relinks candidate.loop outcome (inFront tree candidate ending) kind kind' := by
  obtain ⟨plan, hplanned⟩ := h.planned
  have hwf := hplanned.wellFormed
  have hblock := h.installed.grafted.inPlace hwf (by simp)
  cases hfolded : outcome.folded with
  | true =>
    -- the declaration is linked by the same block
    obtain ⟨block, v, init, collected, left, right, hplace, -, hinto⟩ :=
      h.exists_declaration hfolded
    obtain rfl := hwf.linkedOnce.one_linker up block _ hup hplace.attached hloop
      (hplace.mem_parts_up (by simp))
    have hafter := hblock up left right hup (by simpa [hinto] using hplace.block)
    exact ⟨_, _, hplace.block, by simpa using hafter, .folded hfolded⟩
  | false =>
    have hfold := h.fold_eq_none hfolded
    obtain ⟨kind, hkind⟩ := Tree.exists_kind_of_lt (hwf.lt_size hup)
    have hmem : candidate.loop ∈ kind.children := Tree.parts_eq_children hkind ▸ hloop
    rcases Kind.graft_cases (exchange [candidate.loop] [outcome.replacement]) kind with
      ⟨stmts, rfl, -⟩ | ⟨hno, -⟩
    · obtain ⟨left, right, rfl⟩ := List.append_of_mem hmem
      have hafter := hblock up left right hup (by simpa [foldedInto, hfold] using hkind)
      exact ⟨_, _, hkind, by simpa using hafter, .inBlock hfolded⟩
    · -- without comments in front, one part is exchanged for one
      have hafter := (h.revised hup hloop).kind?_eq (h.outside_parent hup hloop)
      rw [Pipeline.placed, Pipeline.given, hkind, h.inFront_eq_nil hup hloop hkind hno, hfold,
        Option.map_some] at hafter
      exact ⟨_, _, hkind, hafter.trans (congrArg some (Kind.graft_exchange_single kind)),
        .inSlot hfolded hno⟩

/-- **What comes to stand in front** are comments of the loop that are in no part of the new
statement, as they stand beside it now. -/
theorem orphaned (hup : tree.Attached up) (hloop : candidate.loop ∈ tree.parts up) :
    ∀ c ∈ inFront tree candidate ending, tree.Reaches candidate.loop c ∧
      (∃ text, tree.kind? c = some (.comment text)) ∧ ¬ next.Reaches outcome.replacement c := by
  obtain ⟨plan, hplanned⟩ := h.planned
  intro c hc
  have hsaved := Pipeline.inFront_subset hc
  obtain ⟨text, htext⟩ := Option.isSome_iff_exists.1 (mem_savedComments.1 hsaved).2.1
  refine ⟨hplanned.reaches_saved hsaved, ⟨text, Tree.comment?_eq_some.1 htext⟩, ?_⟩
  -- the parent still hangs in the tree, and there nothing is linked twice
  have hnext := (h.revised hup hloop).attached (h.outside_parent hup hloop)
  have hfront : ∀ {left right : List NodeId}, next.kind? up = some (.stmt (.block
      (left ++ inFront tree candidate ending ++ outcome.replacement :: right))) →
      ¬ next.Reaches outcome.replacement c := fun hafter =>
    h.installed.wellFormed.linkedOnce.not_reaches_front hnext (Tree.parts_eq_children hafter) c
      (List.mem_append_right _ hc)
  obtain ⟨kind, kind', hkind, hafter, hrelinks⟩ := h.exists_relinks hup hloop
  -- in a block the comments stand beside the statement; elsewhere none are put in front
  cases hrelinks with
  | inBlock not_folded => exact hfront hafter
  | folded is_folded => exact hfront hafter
  | inSlot not_folded no_block =>
    rw [h.inFront_eq_nil hup hloop hkind no_block] at hc
    cases hc

/-! ### Everywhere else -/

/-- **A node keeps its layer** if it neither links the loop nor is what the loop is folded into. -/
theorem kind?_eq (hn : n.index < tree.size) (hparent : tree.parent? candidate.loop ≠ some n)
    (hno : ¬ (outcome.folded = true ∧ n = outcome.replacement)) : next.kind? n = tree.kind? n := by
  refine h.installed.frame n hn (fun hmem => hno ⟨?_, h.installed.folded_eq n hmem⟩) hparent
  obtain ⟨fold, hfold, -⟩ := mem_foldedInto.1 hmem
  simp [h.folded_eq, hfold]

/-- **Code that contains neither** is as it was. -/
theorem sameBelow (ha : tree.Attached a) (hloop : ¬ tree.Reaches a candidate.loop)
    (hno : outcome.folded = true → ¬ tree.Reaches a outcome.replacement) :
    tree.SameBelow next a := by
  obtain ⟨plan, hplanned⟩ := h.planned
  have hwf := hplanned.wellFormed
  intro n hn
  refine h.kind?_eq (hwf.lt_size (ha.reaches hn)) (fun hparent => ?_) fun ⟨hfolded, heq⟩ => ?_
  · -- the loop would be below its parent
    exact hloop (hn.tail (hwf.parent?_eq_some.1 hparent).2)
  · exact hno hfolded (heq ▸ hn)

theorem root_eq : next.root = if candidate.loop = tree.root then outcome.replacement
    else tree.root := by
  split
  · next heq => exact h.installed.root_eq_new heq
  · next hne => exact h.installed.root_eq hne

theorem confined : Confined tree next candidate.loop outcome := by
  obtain ⟨plan, hplanned⟩ := h.planned
  have hwf := hplanned.wellFormed
  refine {
    size_le := h.installed.size_le
    vars_eq := h.installed.vars_eq
    scope_eq := h.extended.scope_eq
    root_eq := h.root_eq
    span_eq := h.extended.span_eq
    kind?_eq := fun n => h.kind?_eq
    parent := fun up hparent => ?_
    declaration := fun hfolded => ?_
    fresh := fun hfolded => ?_
    source_eq := fun a ha hloop hno options showIds => ?_ }
  · -- the parent of the loop links what has taken its place
    obtain ⟨hup, hloop⟩ := hwf.parent?_eq_some.1 hparent
    obtain ⟨kind, kind', hkind, hafter, hrelinks⟩ := h.exists_relinks hup hloop
    exact ⟨kind, kind', _, hkind, hafter, hrelinks, h.orphaned hup hloop⟩
  · -- a declaration that is folded into is in the block in front of the loop
    obtain ⟨_, v, init, collected, _, _, hplace, hafter, -⟩ := h.exists_declaration hfolded
    have hparent := hwf.parent?_of_mem hplace.attached (c := candidate.loop)
      (hplace.mem_parts_up (by simp))
    exact ⟨_, v, init, collected, hparent, hplace.declares, hafter⟩
  · -- otherwise the statement is a new node
    obtain ⟨-, -, -, -, -, -, hnew⟩ := h.installed.stands (h.fold_eq_none hfolded)
    exact hnew
  · -- code that reaches neither the loop nor the statement has the nodes that it had
    have hg := hwf.grounded ha
    obtain ⟨text, htext⟩ := Tree.exists_source options showIds hg hwf.vars_known
    refine ⟨text, htext, ?_⟩
    rw [(h.sameBelow ha hloop hno).source_eq hg h.installed.vars_eq, htext]

end Inspector.Applied

/-! ### Any finding -/

namespace Inspector

/-- **A rewrite touches only its own site.** Whichever finding is applied, the change is confined to
the loop. -/
theorem confined_of_apply (inspector : Inspector) {tree next : Tree} {finding : Finding}
    {outcome : Outcome} (hwf : tree.WellFormed)
    (hattached : tree.isAttached finding.loop = .ok true)
    (happly : inspector.apply finding tree = .ok outcome next) :
    Confined tree next finding.loop outcome := by
  obtain ⟨candidate, ending, -, hloop, -, -, happlied⟩ := applied_of_apply hwf hattached happly
  exact hloop ▸ happlied.confined

/-- When the first loop is folded into the declaration in front of it, the second loop prints as
before, and the branch that was in the first one is what it was. -/
theorem confined_besideLoops :
    ∃ finding outcome next, knowingAll.inspect besideLoops ⟨10⟩ = .ok finding ∧
      knowingAll.apply finding besideLoops = .ok outcome next ∧
      outcome.folded = true ∧ outcome.replacement = ⟨1⟩ ∧
      next.text ⟨18⟩ = .ok "for (String y : ys) if (y.isEmpty()) print(y);" ∧
      next.kind? ⟨9⟩ = some (.stmt (.branch (some ⟨4⟩) (some ⟨8⟩) none)) := by
  have hwf : besideLoops.WellFormed := .of_isInOrder (by decide)
  obtain ⟨finding, outcome, next, hreported, hloop, happly, hfolded, hreplacement⟩ :
      ∃ finding outcome next, knowingAll.inspect besideLoops ⟨10⟩ = .ok finding ∧
        finding.loop = ⟨10⟩ ∧ knowingAll.apply finding besideLoops = .ok outcome next ∧
        outcome.folded = true ∧ outcome.replacement = ⟨1⟩ :=
    ⟨_, _, _, by cbv, rfl, by cbv, rfl, rfl⟩
  have hconfined := confined_of_apply knowingAll hwf (by rw [hloop]; cbv) happly
  rw [hloop] at hconfined
  have hattached : besideLoops.Attached ⟨18⟩ := (hwf.isAttached_eq_true (by decide)).1 (by cbv)
  -- the second loop reaches neither the first one nor the declaration
  have hapart : ¬ besideLoops.Reaches ⟨18⟩ ⟨10⟩ ∧ ¬ besideLoops.Reaches ⟨18⟩ ⟨1⟩ := by
    simp only [← Tree.mem_preorder_iff]
    decide
  obtain ⟨text, hbefore, hafter⟩ := hconfined.source_eq ⟨18⟩ hattached hapart.1
    (fun _ => hreplacement ▸ hapart.2) .compact false
  -- so its text is computed in the tree as it was
  refine ⟨finding, outcome, next, hreported, happly, hfolded, hreplacement, ?_, ?_⟩
  · exact hafter.trans (hbefore.symm.trans (by cbv))
  · exact hconfined.kind?_eq ⟨9⟩ (by decide) (by decide) fun h => by simp [hreplacement] at h

end Inspector

end LoopToStream
