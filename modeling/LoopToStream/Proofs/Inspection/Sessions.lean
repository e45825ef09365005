import LoopToStream.Proofs.Inspection.Applying
import LoopToStream.Proofs.Pipeline.Retyping

/-!
# Several edits and findings at once

A tree may be worked on with any number of edits that have been opened on it and findings that have
been made about it. All of them are tied to the revision at which they were taken. `Session` is such
a tree with the edits and findings around, and `Session.step` is one thing that is done next, in
whatever order: an edit is opened, added to or committed, a loop is looked at, a finding is applied.

* `Session.step_locked` — one step: a success is one of an edit or a finding of the current revision
  and raises the revision by one, or by two where a finding has taken two commits. All else leaves
  the tree as it is.
* `Session.locked_of_run` — whole runs, by induction on the steps: of all that has been taken at one
  revision, at most one edit or finding is ever let through, and it is let through only if nothing
  has been committed since. What comes later is told that it is stale.

Nothing is asked of the tree but that its parents are set and that no way down ever returns to a
node.
-/

namespace LoopToStream

variable {tree next : Tree} {edit : Edit} {op : EditOp} {finding : Finding}
    {refusal : Refusal Failure}

/-! ### Revisions -/

/-- Operations leave the revision alone. -/
theorem Tree.applyOp_revision (h : tree.applyOp op = .ok next) : next.revision = tree.revision := by
  obtain ⟨changed, hchanged, hrelink⟩ := bind_eq_ok.1 h
  rw [eq_relinked_of_relink hrelink, relinked_revision]
  rcases changeLinks_cases hchanged with rfl | ⟨up, rfl⟩
  · exact withTop_revision
  · exact modifyKind_revision

theorem Tree.foldlM_applyOp_revision {ops : List EditOp} {now : Tree}
    (h : ops.foldlM Tree.applyOp now = .ok next) : next.revision = now.revision := by
  induction ops generalizing now with
  | nil =>
    cases h
    rfl
  | cons op ops ih =>
    rw [List.foldlM_cons] at h
    obtain ⟨mid, hmid, hrest⟩ := bind_eq_ok.1 h
    exact (ih hrest).trans (applyOp_revision hmid)

/-- **A commit is one revision.** -/
theorem Tree.commit_revision (h : tree.commit edit = .ok next) :
    next.revision = tree.revision + 1 := by
  obtain ⟨-, -, -, changed, hchanged, rfl⟩ := Edit.of_commit h
  have hsame : changed.revision = (edit.atop tree).revision := foldlM_applyOp_revision hchanged
  exact congrArg (· + 1) hsame

/-- An edit is told that it is stale. -/
theorem TreeChange.commit_of_stale (h : edit.baseRevision ≠ tree.revision) :
    TreeChange.commit edit tree =
      .error (.because (.stale edit.baseRevision tree.revision)) tree := by
  have hcommit : tree.commit edit = refuse (.stale edit.baseRevision tree.revision) := by
    rw [Tree.commit, Edit.check]
    dsimp only
    rw [if_pos (.inl h)]
    rfl
  rw [TreeChange.commit, TreeChange.bind_of_ok TreeChange.get_eq, hcommit]
  rfl

namespace Inspector

variable {inspector : Inspector} {outcome : Outcome}

/-- A finding is told that it is stale. -/
theorem apply_of_stale (h : finding.revision ≠ tree.revision) :
    inspector.apply finding tree =
      .error (.because (.stale finding.revision tree.revision)) tree := by
  have hplan : inspector.planFor tree finding = refuse (.stale finding.revision tree.revision) := by
    unfold planFor
    simp only [ne_eq, h, not_false_eq_true, if_true]
    rfl
  rw [apply, TreeChange.bind_of_ok TreeChange.get_eq, hplan]
  rfl

/-- A finding that is applied belongs to the revision. -/
theorem revision_of_apply (h : inspector.apply finding tree = .ok outcome next) :
    finding.revision = tree.revision := by
  by_contra hne
  rw [apply_of_stale hne] at h
  cases h

/-- **Applying a finding** takes one commit, or two, and leaves parents that are set. -/
theorem parented_of_apply (h : tree.Parented)
    (happly : inspector.apply finding tree = .ok outcome next) :
    next.Parented ∧ next.revision = tree.revision + (if outcome.explicitLambda then 2 else 1) := by
  rw [apply, TreeChange.bind_of_ok TreeChange.get_eq] at happly
  obtain ⟨plan, mid, hplan, hinstall⟩ := TreeChange.bind_eq_ok.1 happly
  obtain ⟨-, rfl⟩ := TreeChange.ofAttempt_eq_ok.1 hplan
  obtain ⟨place, staged, edit, mid, hstaged, hcommit, -, hlast⟩ := Pipeline.install_eq_ok hinstall
  have hmid := h.commit (Pipeline.fresh_of_stagePlan hstaged) hcommit
  have hrevision := Tree.commit_revision hcommit
  rcases hlast with ⟨htyped, rfl⟩ | ⟨htyped, f, second, hexplicitly, hsecond⟩
  · exact ⟨hmid, by simp [htyped, hrevision]⟩
  · refine ⟨hmid.commit (Pipeline.fresh_of_explicitly hexplicitly) hsecond, ?_⟩
    rw [Tree.commit_revision hsecond, hrevision, htyped, UInt64.add_assoc]
    rfl

/-- **An application that fails** leaves the tree as it is. -/
theorem eq_of_apply_failed (h : tree.Parented) (hacyclic : tree.Acyclic)
    (hfailed : inspector.apply finding tree = .error refusal next) (hnext : next.Acyclic) :
    next = tree := by
  rw [apply, TreeChange.bind_of_ok TreeChange.get_eq] at hfailed
  rcases TreeChange.bind_eq_error.1 hfailed with hfailed | ⟨plan, mid, hplan, hinstall⟩
  · exact (TreeChange.ofAttempt_eq_error.1 hfailed).2.symm
  obtain ⟨hplanFor, rfl⟩ := TreeChange.ofAttempt_eq_ok.1 hplan
  obtain ⟨candidate, hcandidate, -, hof⟩ := planFor_eq_ok hplanFor
  obtain ⟨hloop, haction, hcomments⟩ :=
    Pipeline.reaches_of_eq_ok (Candidate.found_of_eq_ok hcandidate) hof
  rw [← hloop] at haction hcomments
  exact Pipeline.eq_of_install_failed h hacyclic hcomments haction hinstall hnext

end Inspector

/-! ### Sessions -/

/-- A tree that is worked on, with the edits that have been opened on it and the findings that have
been made about it, in the order in which they were taken. -/
structure Session where
  tree : Tree
  edits : List Edit
  findings : List Finding

namespace Session

/-- What can be done next. Edits and findings are called by their numbers. -/
inductive Action where
  | openEdit
  | stage (edit : Nat) (kind : Kind NodeId) (place : Span)
  | addOp (edit : Nat) (op : EditOp)
  | commit (edit : Nat)
  | inspect (inspector : Inspector) (loop : NodeId)
  | apply (inspector : Inspector) (finding : Nat)

/-- What comes of it. -/
inductive Response where
  /-- An edit has been opened or added to, or there is a finding. -/
  | noted
  | committed
  | applied (outcome : Outcome)
  | failed (refusal : Refusal Failure)
  | turnedDown (refusal : Refusal Rejection)
  /-- There is no such edit or finding. -/
  | unknown

namespace Response

/-- An edit or a finding has been let through. -/
def succeeds : Response → Bool
  | committed | applied _ => true
  | _ => false

/-- By how much the revision is raised. -/
def raises : Response → Nat
  | committed => 1
  | applied outcome => if outcome.explicitLambda then 2 else 1
  | _ => 0

theorem raises_pos {response : Response} : response.succeeds = true ↔ 0 < response.raises := by
  cases response with
  | applied outcome =>
    simp only [succeeds, raises, true_iff]
    split <;> omega
  | _ => simp [succeeds, raises]

theorem raises_le (response : Response) : response.raises ≤ 2 := by
  cases response with
  | applied outcome =>
    rw [raises]
    split <;> omega
  | _ => simp [raises]

end Response

/-- Nothing has been taken yet. -/
def start (tree : Tree) : Session := ⟨tree, [], []⟩

/-- What a change of the tree comes to, which may fail with the tree as it is then. -/
def change {α : Type} (session : Session) (done : α → Response) (change : TreeChange α) :
    Response × Session :=
  match change session.tree with
  | .ok a tree => (done a, { session with tree })
  | .error refusal tree => (.failed refusal, { session with tree })

/-- **One thing is done.** An edit is not used up by committing it. -/
def step (session : Session) : Action → Response × Session
  | .openEdit => (.noted, { session with edits := session.edits ++ [Edit.start session.tree] })
  | .stage i kind place =>
    match session.edits[i]? with
    | some edit => (.noted, { session with edits := session.edits.set i (edit.add kind place).2 })
    | none => (.unknown, session)
  | .addOp i op =>
    match session.edits[i]? with
    | some edit => (.noted, { session with edits := session.edits.set i (edit.addOp op) })
    | none => (.unknown, session)
  | .commit i =>
    match session.edits[i]? with
    | some edit => session.change (fun _ => .committed) (TreeChange.commit edit)
    | none => (.unknown, session)
  | .inspect inspector loop =>
    match inspector.inspect session.tree loop with
    | .ok finding => (.noted, { session with findings := session.findings ++ [finding] })
    | .error refusal => (.turnedDown refusal, session)
  | .apply inspector i =>
    match session.findings[i]? with
    | some finding => session.change .applied (inspector.apply finding)
    | none => (.unknown, session)

/-- What the session is after some actions. -/
def after (session : Session) : List Action → Session
  | [] => session
  | action :: rest => (session.step action).2.after rest

/-- By how much the revision is raised by some actions. -/
def raised (session : Session) : List Action → Nat
  | [] => 0
  | action :: rest => (session.step action).1.raises + (session.step action).2.raised rest

/-- The revision at which the edit or the finding was taken that an action uses. -/
def takenAt (session : Session) : Action → Option UInt64
  | .commit i => (session.edits[i]?).map Edit.baseRevision
  | .apply _ i => (session.findings[i]?).map Finding.revision
  | _ => none

/-- What the first action takes, done in this session, is what the second one uses. -/
def takes (session : Session) : Action → Action → Prop
  | .openEdit, .commit i => i = session.edits.length
  | .inspect inspector loop, .apply _ i =>
    (∃ finding, inspector.inspect session.tree loop = .ok finding) ∧ i = session.findings.length
  | _, _ => False

variable {session : Session} {action used : Action} {actions : List Action} {r : UInt64}

/-! ### One step -/

/-- **What a step can do.** -/
inductive Moves (session : Session) : Action → Response → Session → Prop where
  | opened :
    Moves session .openEdit .noted { session with edits :=
      session.edits ++ [Edit.start session.tree] }
  | staged {i : Nat} {kind : Kind NodeId} {place : Span} {edit : Edit}
    (called : session.edits[i]? = some edit) :
    Moves session (.stage i kind place) .noted
      { session with edits := session.edits.set i (edit.add kind place).2 }
  | opAdded {i : Nat} {op : EditOp} {edit : Edit} (called : session.edits[i]? = some edit) :
    Moves session (.addOp i op) .noted { session with edits := session.edits.set i (edit.addOp op) }
  | found {inspector : Inspector} {loop : NodeId} {finding : Finding}
    (reported : inspector.inspect session.tree loop = .ok finding) :
    Moves session (.inspect inspector loop) .noted
      { session with findings := session.findings ++ [finding] }
  | committed {i : Nat} {edit : Edit} {tree : Tree} (called : session.edits[i]? = some edit)
    (done : session.tree.commit edit = .ok tree) :
    Moves session (.commit i) .committed { session with tree }
  | applied {inspector : Inspector} {i : Nat} {finding : Finding} {outcome : Outcome} {tree : Tree}
    (called : session.findings[i]? = some finding)
    (done : inspector.apply finding session.tree = .ok outcome tree) :
    Moves session (.apply inspector i) (.applied outcome) { session with tree }
  | failed {inspector : Inspector} {i : Nat} {finding : Finding} {refusal : Refusal Failure}
    {tree : Tree} (called : session.findings[i]? = some finding)
    (failed : inspector.apply finding session.tree = .error refusal tree) :
    Moves session (.apply inspector i) (.failed refusal) { session with tree }
  /-- A commit that is refused, a loop that is turned down, or nothing that is called so. -/
  | idle {action : Action} {response : Response} (idle : response.raises = 0) :
    Moves session action response session

theorem moves_step (session : Session) (action : Action) :
    session.Moves action (session.step action).1 (session.step action).2 := by
  -- each request has one move for success; a request for something that is not there is idle
  cases action with
  | openEdit => exact .opened
  | stage i kind place =>
    simp only [step]
    cases hi : session.edits[i]? with
    | none => exact .idle rfl
    | some edit => exact .staged hi
  | addOp i op =>
    simp only [step]
    cases hi : session.edits[i]? with
    | none => exact .idle rfl
    | some edit => exact .opAdded hi
  | commit i =>
    simp only [step, change]
    cases hi : session.edits[i]? with
    | none => exact .idle rfl
    | some edit =>
      dsimp only
      -- an edit that is refused leaves the tree as it is
      cases hcommit : TreeChange.commit edit session.tree with
      | ok _ tree => exact .committed hi (TreeChange.commit_eq_ok hcommit)
      | error refusal tree =>
        obtain rfl := TreeChange.commit_eq_error hcommit
        exact .idle rfl
  | inspect inspector loop =>
    simp only [step]
    cases hfinding : inspector.inspect session.tree loop with
    | ok finding => exact .found hfinding
    | error refusal => exact .idle rfl
  | apply inspector i =>
    simp only [step, change]
    cases hi : session.findings[i]? with
    | none => exact .idle rfl
    | some finding =>
      dsimp only
      -- a finding that fails may have changed the tree, which a later lemma excludes
      cases happly : inspector.apply finding session.tree with
      | ok outcome tree => exact .applied hi happly
      | error refusal tree => exact .failed hi happly

/-- What has been taken stays as old as it is. -/
theorem takenAt_step (h : session.takenAt used = some r) :
    (session.step action).2.takenAt used = some r := by
  have hmoves := session.moves_step action
  generalize (session.step action).1 = response at hmoves
  generalize (session.step action).2 = next at hmoves ⊢
  -- edits are added to where they stand, and edits and findings are only ever joined by others
  have hset : ∀ {i : Nat} {edit new : Edit}, session.edits[i]? = some edit →
      new.baseRevision = edit.baseRevision →
      ({ session with edits := session.edits.set i new } : Session).takenAt used = some r := by
    intro i edit new hi hnew
    cases used with
    | commit j =>
      show ((session.edits.set i new)[j]?).map Edit.baseRevision = some r
      replace h : (session.edits[j]?).map Edit.baseRevision = some r := h
      obtain ⟨hlt, -⟩ := List.getElem?_eq_some_iff.1 hi
      by_cases heq : i = j
      · subst heq
        rw [hi, Option.map_some] at h
        rw [List.getElem?_set_self hlt, Option.map_some, hnew, h]
      · rw [List.getElem?_set_ne heq, h]
    | _ => exact h
  have hjoined : ∀ {α : Type} {l : List α} {new : α} {j : Nat} {f : α → UInt64},
      (l[j]?).map f = some r → ((l ++ [new])[j]?).map f = some r := by
    intro α l new j f hj
    obtain ⟨a, ha, hr⟩ := Option.map_eq_some_iff.1 hj
    obtain ⟨hlt, -⟩ := List.getElem?_eq_some_iff.1 ha
    rw [List.getElem?_append_left hlt, ha]
    exact congrArg some hr
  -- a request names its edit or finding by its place in the list
  cases hmoves with
  | opened =>
    cases used with
    | commit j => exact hjoined h
    | _ => exact h
  | staged called => exact hset called rfl
  | opAdded called => exact hset called rfl
  | found reported =>
    cases used with
    | apply inspector j => exact hjoined h
    | _ => exact h
  | _ => exact h

/-- What is taken belongs to the current revision. -/
theorem takenAt_of_takes (h : session.takes action used) :
    (session.step action).2.takenAt used = some session.tree.revision := by
  cases action with
  | openEdit =>
    cases used with
    | commit i =>
      obtain rfl : i = session.edits.length := h
      simp [step, takenAt, Edit.start]
    | _ => exact h.elim
  | inspect inspector loop =>
    cases used with
    | apply inspector' i =>
      obtain ⟨⟨finding, hfinding⟩, rfl⟩ := h
      obtain ⟨-, -, -, -, -, hrevision⟩ := Inspector.inspect_eq_ok hfinding
      simp [step, takenAt, hfinding, hrevision]
    | _ => exact h.elim
  | _ => exact h.elim

/-- **What is not of the current revision** is told that it is stale. -/
theorem step_of_stale (h : session.takenAt action = some r) (hr : r ≠ session.tree.revision) :
    session.step action = (.failed (.because (.stale r session.tree.revision)), session) := by
  cases action with
  | commit i =>
    obtain ⟨edit, hedit, rfl⟩ := Option.map_eq_some_iff.1 h
    simp only [step, hedit, change]
    rw [TreeChange.commit_of_stale hr]
  | apply inspector i =>
    obtain ⟨finding, hfinding, rfl⟩ := Option.map_eq_some_iff.1 h
    simp only [step, hfinding, change]
    rw [Inspector.apply_of_stale hr]
  | _ => cases h

/-- **What the steps keep up**: the parents are set, and the nodes staged in open edits have none.
-/
structure Ready (session : Session) : Prop where
  parented : session.tree.Parented
  fresh : ∀ edit ∈ session.edits, edit.Fresh

theorem ready_start (h : tree.relink = .ok tree) : (start tree).Ready :=
  ⟨Tree.parented_of_relink h, by simp [start]⟩

/-- **One step.** A success raises the revision, and all else leaves the tree as it is. -/
theorem step_locked (h : session.Ready) (hacyclic : session.tree.Acyclic)
    (hnext : (session.step action).2.tree.Acyclic) :
    (session.step action).2.Ready ∧
      (session.step action).2.tree.revision =
        session.tree.revision + UInt64.ofNat (session.step action).1.raises ∧
      ((session.step action).1.raises = 0 → (session.step action).2.tree = session.tree) := by
  have hmoves := session.moves_step action
  generalize (session.step action).1 = response at hmoves ⊢
  generalize (session.step action).2 = next at hmoves hnext ⊢
  -- an edit that has been changed is still fresh, and so are the others
  have hset : ∀ {i : Nat} {edit new : Edit}, session.edits[i]? = some edit →
      (edit.Fresh → new.Fresh) → ∀ e ∈ session.edits.set i new, e.Fresh := by
    intro i edit new hi hnew e he
    rcases List.mem_or_eq_of_mem_set he with he | rfl
    · exact h.fresh e he
    · exact hnew (h.fresh edit (List.mem_of_getElem? hi))
  cases hmoves with
  | opened =>
    refine ⟨⟨h.parented, fun e he => ?_⟩, by simp [Response.raises], fun _ => rfl⟩
    -- an edit that is opened has staged nothing
    rcases List.mem_append.1 he with he | he
    · exact h.fresh e he
    · rw [List.mem_singleton.1 he]
      exact Edit.fresh_start _
  | staged called =>
    exact ⟨⟨h.parented, hset called fun hfresh => hfresh.add _ _⟩,
      by simp [Response.raises], fun _ => rfl⟩
  | opAdded called =>
    exact ⟨⟨h.parented, hset called fun hfresh => hfresh.addOp _⟩,
      by simp [Response.raises], fun _ => rfl⟩
  | found reported => exact ⟨⟨h.parented, h.fresh⟩, by simp [Response.raises], fun _ => rfl⟩
  | @committed i edit tree called done =>
    -- a commit raises the revision by one
    have hfresh := h.fresh edit (List.mem_of_getElem? called)
    exact ⟨⟨h.parented.commit hfresh done, h.fresh⟩, Tree.commit_revision done,
      fun hno => by cases hno⟩
  | @applied inspector i finding outcome tree called done =>
    -- a finding that is applied raises it by one or two
    obtain ⟨hparented, hrevision⟩ := Inspector.parented_of_apply h.parented done
    refine ⟨⟨hparented, h.fresh⟩, ?_, fun hno => ?_⟩
    · rw [Response.raises, hrevision]
      cases outcome.explicitLambda <;> rfl
    · -- one commit at least has been made
      have hpos : 0 < (Response.applied outcome).raises := Response.raises_pos.1 rfl
      exact absurd hno hpos.ne'
  | @failed inspector i finding refusal tree called failed =>
    -- a failure has left no trace
    obtain rfl := Inspector.eq_of_apply_failed h.parented hacyclic failed hnext
    exact ⟨⟨h.parented, h.fresh⟩, by simp [Response.raises], fun _ => rfl⟩
  | idle idle => exact ⟨h, by simp [idle], fun _ => rfl⟩

/-! ### Runs -/

theorem after_append (session : Session) (first rest : List Action) :
    session.after (first ++ rest) = (session.after first).after rest := by
  induction first generalizing session with
  | nil => rfl
  | cons action first ih => exact ih _

theorem raised_append (session : Session) (first rest : List Action) :
    session.raised (first ++ rest) = session.raised first + (session.after first).raised rest := by
  induction first generalizing session with
  | nil => simp [raised, after]
  | cons action first ih =>
    show (session.step action).1.raises + (session.step action).2.raised (first ++ rest) = _
    rw [ih, ← Nat.add_assoc]
    rfl

theorem raised_le (session : Session) (actions : List Action) :
    session.raised actions ≤ 2 * actions.length := by
  induction actions generalizing session with
  | nil => exact Nat.le_refl 0
  | cons action actions ih =>
    have hstep := (session.step action).1.raises_le
    have hrest := ih (session.step action).2
    rw [raised, List.length_cons]
    omega

/-- What has been taken stays as old as it is. -/
theorem takenAt_after (actions : List Action) (h : session.takenAt used = some r) :
    (session.after actions).takenAt used = some r := by
  induction actions generalizing session with
  | nil => exact h
  | cons action actions ih => exact ih (takenAt_step h)

/-- **A run that can be relied on**: no tree on the way has a way down that returns, and the
revision does not start over. -/
structure Orderly (session : Session) (actions : List Action) : Prop where
  acyclic : ∀ before, before <+: actions → (session.after before).tree.Acyclic
  no_wrap : session.tree.revision.toNat + session.raised actions < UInt64.size

/-- Where a revision gets by so many commits. -/
theorem toNat_add_ofNat {revision : UInt64} {n : Nat} (h : revision.toNat + n < UInt64.size) :
    (revision + UInt64.ofNat n).toNat = revision.toNat + n := by
  have hsize : UInt64.size = 2 ^ 64 := rfl
  rw [UInt64.toNat_add, UInt64.toNat_ofNat']
  omega

/-- **A whole run** raises the revision by all that its steps do, and where nothing is raised the
tree is the same. By induction on the steps. -/
theorem run_locked (h : session.Ready) (horderly : session.Orderly actions) :
    (session.after actions).Ready ∧
      (session.after actions).tree.revision.toNat =
        session.tree.revision.toNat + session.raised actions ∧
      (session.raised actions = 0 → (session.after actions).tree = session.tree) := by
  induction actions generalizing session with
  | nil => exact ⟨h, rfl, fun _ => rfl⟩
  | cons action rest ih =>
    have hacyclic : session.tree.Acyclic := horderly.acyclic [] (List.nil_prefix)
    have hnext : (session.step action).2.tree.Acyclic :=
      horderly.acyclic [action] (List.prefix_cons_iff.2 (.inr ⟨[], rfl, List.nil_prefix⟩))
    obtain ⟨hready, hrevision, hsame⟩ := step_locked h hacyclic hnext
    have hwrap := horderly.no_wrap
    rw [raised] at hwrap
    -- the revision does not wrap around, so that numbers can be added up
    have hraised : (session.step action).2.tree.revision.toNat =
        session.tree.revision.toNat + (session.step action).1.raises := by
      rw [hrevision]
      exact toNat_add_ofNat (by omega)
    -- what is asked of the session holds of what is left of the run
    have hrest : (session.step action).2.Orderly rest := by
      refine ⟨fun before hbefore => ?_, by omega⟩
      exact horderly.acyclic (action :: before)
        (List.prefix_cons_iff.2 (.inr ⟨before, rfl, hbefore⟩))
    obtain ⟨hlast, hsum, hkept⟩ := ih hready hrest
    refine ⟨hlast, ?_, fun hzero => ?_⟩
    · show ((session.step action).2.after rest).tree.revision.toNat = _
      rw [hsum, hraised, raised, Nat.add_assoc]
    · rw [raised] at hzero
      exact (hkept (by omega)).trans (hsame (by omega))

/-- The beginning of a run. -/
theorem Orderly.first {before rest : List Action} (h : session.Orderly (before ++ rest)) :
    session.Orderly before := by
  have hwrap := h.no_wrap
  rw [raised_append] at hwrap
  exact ⟨fun first hfirst => h.acyclic first (hfirst.trans (List.prefix_append _ _)), by omega⟩

/-- **In the middle of a run**: the session can go on, and so can the run. -/
theorem Orderly.split (hready : session.Ready) {before rest : List Action}
    (h : session.Orderly (before ++ rest)) :
    (session.after before).Ready ∧ (session.after before).Orderly rest := by
  have hwrap := h.no_wrap
  rw [raised_append] at hwrap
  obtain ⟨hafter, hrevision, -⟩ := run_locked hready h.first
  refine ⟨hafter, fun first hfirst => ?_, by omega⟩
  rw [← after_append]
  exact h.acyclic _ ((List.prefix_append_right_inj before).2 hfirst)

/-- **Only what is of the current revision is let through.** -/
theorem takenAt_of_succeeds (h : session.takenAt action = some r)
    (hsucceeds : (session.step action).1.succeeds = true) : r = session.tree.revision := by
  by_contra hr
  rw [step_of_stale h hr] at hsucceeds
  cases hsucceeds

/-- **Optimistic locking.** A tree whose parents are set is worked on in any order: edits are
opened, added to and committed, loops are looked at and findings are applied. No way down ever
returns to a node, and the revision does not start over.

* A commit that is let through raises the revision by one, a finding that is applied by one or two,
  and everything else leaves the tree as it is.
* Once an edit or a finding has been let through, everything else that was taken at the same
  revision is told that it is stale, with this revision and the current one, and the session is as
  it was.
* What has been taken is let through only if nothing has been since. -/
theorem locked_of_run {tree : Tree} (hrelinked : tree.relink = .ok tree) {actions : List Action}
    (horderly : (start tree).Orderly actions) :
    (∀ before action rest, actions = before ++ action :: rest →
      let now := (start tree).after before
      let next := (now.step action).2
      ((now.step action).1 = .committed → next.tree.revision.toNat = now.tree.revision.toNat + 1) ∧
        (∀ outcome, (now.step action).1 = .applied outcome →
          next.tree.revision.toNat = now.tree.revision.toNat + 1 ∨
            next.tree.revision.toNat = now.tree.revision.toNat + 2) ∧
        ((now.step action).1.succeeds = false → next.tree = now.tree)) ∧
    (∀ before first between later rest r, actions = before ++ first :: between ++ later :: rest →
      let now := (start tree).after before
      let afterwards := now.after (first :: between)
      (now.step first).1.succeeds = true → now.takenAt first = some r →
        afterwards.takenAt later = some r →
          afterwards.step later =
            (.failed (.because (.stale r afterwards.tree.revision)), afterwards)) ∧
    (∀ before taking between later rest, actions = before ++ taking :: between ++ later :: rest →
      let now := (start tree).after before
      let afterwards := now.after (taking :: between)
      now.takes taking later → (afterwards.step later).1.succeeds = true →
        now.raised (taking :: between) = 0 ∧ afterwards.tree = now.tree) := by
  have hstart := ready_start hrelinked
  refine ⟨?_, ?_, ?_⟩
  · rintro before action rest rfl
    intro now next
    -- a single step is a run of one action, from the session that is there
    obtain ⟨hready, hrest⟩ := Orderly.split hstart horderly
    have hone : now.Orderly [action] := Orderly.first hrest
    obtain ⟨-, hrevision, hsame⟩ := run_locked hready hone
    replace hrevision : next.tree.revision.toNat =
        now.tree.revision.toNat + (now.step action).1.raises := hrevision
    refine ⟨fun hcommitted => ?_, fun outcome happlied => ?_, fun hfailed => hsame ?_⟩
    · rw [hrevision, hcommitted]
      rfl
    · rw [hrevision, happlied, Response.raises]
      split
      · exact .inr rfl
      · exact .inl rfl
    · have hno : ¬ 0 < (now.step action).1.raises := mt Response.raises_pos.2 (by simp [hfailed])
      exact Nat.le_zero.1 (Nat.not_lt.1 hno)
  · rintro before first between later rest r rfl
    intro now afterwards hsucceeds hfirst hlater
    obtain ⟨hready, hbetween⟩ := Orderly.split hstart horderly.first
    -- the run from the first success up to the later request
    obtain ⟨-, hrevision, -⟩ := run_locked hready hbetween
    obtain rfl := takenAt_of_succeeds hfirst hsucceeds
    refine step_of_stale hlater fun heq => ?_
    -- the success has raised the revision, and nothing lowers it
    have hpos : 0 < now.raised (first :: between) :=
      Nat.add_pos_left (Response.raises_pos.1 hsucceeds) _
    have hsame : afterwards.tree.revision.toNat = now.tree.revision.toNat := congrArg _ heq.symm
    have hsum : now.tree.revision.toNat + now.raised (first :: between) =
      now.tree.revision.toNat := hrevision.symm.trans hsame
    omega
  · rintro before taking between later rest rfl
    intro now afterwards htakes hsucceeds
    obtain ⟨hready, hbetween⟩ := Orderly.split hstart horderly.first
    obtain ⟨-, hrevision, hsame⟩ := run_locked hready hbetween
    -- what has been taken is still as old as it was, and a success means that it is current
    have htaken : afterwards.takenAt later = some now.tree.revision :=
      takenAt_after between (takenAt_of_takes htakes)
    have heq := takenAt_of_succeeds htaken hsucceeds
    -- so nothing has been raised in between
    have hzero : now.raised (taking :: between) = 0 := by
      have hrevisions : afterwards.tree.revision.toNat = now.tree.revision.toNat :=
        congrArg _ heq.symm
      have hsum : now.tree.revision.toNat + now.raised (taking :: between) =
        now.tree.revision.toNat := hrevision.symm.trans hrevisions
      omega
    exact ⟨hzero, hsame hzero⟩

/-- An edit is opened on `Inspector.shortLoop` and its loop is looked at. The finding is applied,
which takes two commits, and then the edit is too late. -/
theorem locked_shortLoop :
    ∃ finding outcome next,
      (Inspector.knowing ["forEach"]).inspect Inspector.shortLoop ⟨9⟩ = .ok finding ∧
      (Inspector.knowing ["forEach"]).apply finding Inspector.shortLoop = .ok outcome next ∧
      (Session.mk next [Edit.start Inspector.shortLoop] [finding]).step (.commit 0) =
        (.failed (.because (.stale 0 next.revision)),
          ⟨next, [Edit.start Inspector.shortLoop], [finding]⟩) := by
  let inspector := Inspector.knowing ["forEach"]
  let tree := Inspector.shortLoop
  obtain ⟨finding, hreported⟩ : ∃ finding, inspector.inspect tree ⟨9⟩ = .ok finding := ⟨_, by cbv⟩
  have hwf : tree.WellFormed := .of_isInOrder (by decide)
  obtain ⟨_, _, outcome, next, -, -, -, -, happly, happlied⟩ :=
    Inspector.exists_apply hwf (by cbv) hreported
  have hrelinked : tree.relink = .ok tree := by cbv
  obtain ⟨_, hrevision⟩ := Inspector.parented_of_apply (Tree.parented_of_relink hrelinked) happly
  -- the session before and after the finding is applied
  let ready : Session := ⟨tree, [Edit.start tree], [finding]⟩
  let applied : Session := ⟨next, [Edit.start tree], [finding]⟩
  have hready : (start tree).after [.openEdit, .inspect inspector ⟨9⟩] = ready := by
    simp [ready, start, after, step, hreported]
  have hstep : ready.step (.apply inspector 0) = (.applied outcome, applied) := by
    simp [ready, applied, step, change, happly]
  have hafter : ready.after [.apply inspector 0] = applied := congrArg Prod.snd hstep
  -- the edit is too late, and leaves the tree as the finding has made it
  have hlater : (applied.step (.commit 0)).2.tree = next := by
    have hne : (0 : UInt64) ≠ next.revision := by
      rw [hrevision]
      cases outcome.explicitLambda <;> decide
    rw [step_of_stale (show applied.takenAt (.commit 0) = some 0 from rfl) hne]
  -- all of the requests, and that none of the trees on the way has a cycle
  let actions : List Action :=
    [.openEdit, .inspect inspector ⟨9⟩] ++ .apply inspector 0 :: [] ++ .commit 0 :: []
  have horderly : (start tree).Orderly actions := by
    refine ⟨fun first hfirst => ?_, ?_⟩
    · -- there is the tree from before, and the one the finding has made of it
      have htrees :
          ((start tree).after first).tree = tree ∨ ((start tree).after first).tree = next := by
        have hmem := (List.mem_inits _ _).2 hfirst
        simp only [actions, List.cons_append, List.nil_append, List.inits, List.map_cons,
          List.map_nil, List.mem_cons, List.not_mem_nil, or_false] at hmem
        rcases hmem with rfl | rfl | rfl | rfl | rfl
        · exact .inl rfl
        · exact .inl rfl
        · exact .inl (by rw [hready])
        · refine .inr ?_
          show (((start tree).after [.openEdit, .inspect inspector ⟨9⟩]).after [_]).tree = next
          rw [hready, hafter]
        · refine .inr ?_
          show (((start tree).after [.openEdit, .inspect inspector ⟨9⟩]).after [_, _]).tree = next
          rw [hready, after, hstep]
          exact hlater
      rcases htrees with h | h <;> rw [h]
      · exact fun n hn => hwf.linkedOnce.irrefl hn
      · exact fun n hn => happlied.installed.wellFormed.linkedOnce.irrefl hn
    · exact Nat.lt_of_le_of_lt (Nat.add_le_add_left (raised_le _ actions) _) (by decide)
  obtain ⟨-, hlate, -⟩ := locked_of_run hrelinked horderly
  have hlast :=
    hlate [.openEdit, .inspect inspector ⟨9⟩] (.apply inspector 0) [] (.commit 0) [] 0 rfl
  dsimp only at hlast
  rw [hready, hafter, hstep] at hlast
  exact ⟨finding, outcome, next, hreported, happly, hlast rfl
    (congrArg some (Inspector.revision_of_apply happly)) rfl⟩

end Session

end LoopToStream
