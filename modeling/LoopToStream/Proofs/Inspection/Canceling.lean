import LoopToStream.Proofs.Inspection.Applying
import LoopToStream.Proofs.Loop.Answering
import Mathlib.Data.ENat.Lattice

/-!
# Runs that are stopped

Before each loop that it looks at, a run asks whether it should stop. The answers may be of any
kind, since what is asked may keep a state of its own. What matters of them is how often in a row
the answer is no to begin with, which may be always (`Inspector.patience`).

What a run does is told by the list of its events (`Inspector.Event`): that it has asked, and that
it has looked at a loop. `Inspector.Visits` is the run as a relation with the events in it, and has
one rule for each way in which a turn can go. It says of the loops of a list what
`Inspector.inspectEach` computes (`Inspector.inspectEach_eq_ok_iff`).

* `Inspector.exists_turn` — one turn in which the run goes on.
* `Inspector.exists_visits` — all turns, by induction on the loops: the events and the report in
  terms of patience.
* `Inspector.exists_run` — a run that is never stopped reports on all loops.
* `Inspector.run_isPrefix` — a run that is stopped is the beginning of that one.
-/

namespace LoopToStream

namespace Inspector

variable {inspector : Inspector} {tree : Tree} {stop : Nat → Bool} {polls : Nat} {loop : NodeId}
  {loops : List NodeId} {finding : Finding} {progress last : Progress}

/-- A run is not stopped. -/
def never : Nat → Bool := fun _ => false

/-- What is reported about the loops of a list. -/
def reports (inspector : Inspector) (tree : Tree) (loops : List NodeId) : List Finding :=
  loops.filterMap fun loop => (inspector.inspect tree loop).toOption

theorem mem_reports :
    finding ∈ inspector.reports tree loops ↔
      ∃ loop ∈ loops, inspector.inspect tree loop = .ok finding := by
  rw [reports, List.mem_filterMap]
  refine exists_congr fun loop => and_congr_right fun _ => ?_
  cases inspector.inspect tree loop <;> simp [Except.toOption]

/-! ### Answers -/

/-- **How often in a row the answer is no**, if whether to stop has been asked so often before.
There is no bound if the answer is never yes. -/
noncomputable def patience (stop : Nat → Bool) (polls : Nat) : ℕ∞ :=
  ⨅ (i : Nat) (_ : stop (polls + 1 + i) = true), (i : ℕ∞)

/-- There are so many answers in a row, and more, exactly if each of these is no. -/
theorem le_patience_iff {n : Nat} :
    (n : ℕ∞) ≤ patience stop polls ↔ ∀ i < n, stop (polls + 1 + i) = false := by
  simp only [patience, le_iInf_iff, Nat.cast_le]
  refine forall_congr' fun i => ?_
  rw [← not_imp_not, not_le, Bool.not_eq_true]

theorem patience_of_yes (h : stop (polls + 1) = true) : patience stop polls = 0 := by
  refine nonpos_iff_eq_zero.1 (iInf₂_le_of_le 0 h ?_)
  exact le_of_eq Nat.cast_zero

/-- After a no there is one answer less to come. -/
theorem patience_of_no (h : stop (polls + 1) = false) :
    patience stop polls = patience stop (polls + 1) + 1 := by
  -- two extended numbers are equal if the same natural numbers are below them
  refine ENat.eq_of_forall_natCast_le_iff fun n => ?_
  cases n with
  | zero => simp
  | succ n =>
    -- the answers from the next question on, numbered anew
    have hshift : ∀ i, polls + 1 + (i + 1) = polls + 1 + 1 + i := fun i => by omega
    rw [Nat.cast_succ, ENat.add_le_add_iff_right (by simp), ← Nat.cast_succ, le_patience_iff,
      le_patience_iff]
    constructor
    · intro hall i hi
      rw [← hshift]
      exact hall (i + 1) (Nat.succ_lt_succ hi)
    · intro hall i hi
      cases i with
      -- the first of the answers is the no
      | zero => exact h
      | succ i =>
        rw [hshift]
        exact hall i (Nat.lt_of_succ_lt_succ hi)

theorem patience_never : patience never polls = ⊤ := by simp [patience, never]

/-! ### What a run does -/

/-- Something that a run does. -/
inductive Event where
  /-- It asks whether it should stop, and gets this answer. -/
  | asked (stops : Bool)
  /-- It looks at a loop. -/
  | looked (loop : NodeId)
deriving DecidableEq, Repr

/-- **A run over the loops of a list**, with what it does on the way from the one progress to the
other. -/
inductive Visits (inspector : Inspector) (tree : Tree) (stop : Nat → Bool) :
    Progress → List NodeId → List Event → Progress → Prop where
  | done {progress : Progress} : Visits inspector tree stop progress [] [] progress
  | stopped {progress : Progress} {loop : NodeId} {rest : List NodeId}
      (answer : stop (progress.polls + 1) = true) :
      Visits inspector tree stop progress (loop :: rest) [.asked true] progress.polled.stopped
  | found {progress last : Progress} {loop : NodeId} {rest : List NodeId} {finding : Finding}
      {events : List Event} (answer : stop (progress.polls + 1) = false)
      (here : inspector.inspect tree loop = .ok finding)
      (later : Visits inspector tree stop (progress.polled.found finding) rest events last) :
      Visits inspector tree stop progress (loop :: rest)
        (.asked false :: .looked loop :: events) last
  | turnedDown {progress last : Progress} {loop : NodeId} {rest : List NodeId} {reason : Rejection}
      {events : List Event} (answer : stop (progress.polls + 1) = false)
      (here : inspector.inspect tree loop = refuse reason)
      (later : Visits inspector tree stop progress.polled rest events last) :
      Visits inspector tree stop progress (loop :: rest)
        (.asked false :: .looked loop :: events) last

/-- **The relation says what is computed.** -/
theorem inspectEach_eq_ok_iff : inspector.inspectEach tree stop progress loops = .ok last ↔
    ∃ events, inspector.Visits tree stop progress loops events last := by
  constructor
  · intro h
    -- by induction on the loops: the answer decides whether the next one is looked at
    induction loops generalizing progress with
    | nil =>
      cases h
      exact ⟨[], .done⟩
    | cons loop rest ih =>
      rw [inspectEach] at h
      cases hanswer : stop (progress.polls + 1) with
      | true =>
        obtain rfl : progress.polled.stopped = last := by simpa [Progress.polled, hanswer] using h
        exact ⟨_, .stopped hanswer⟩
      | false =>
        -- and what is said about the loop decides what is noted
        match hinspect : inspector.inspect tree loop with
        | .ok finding =>
          obtain ⟨events, hlater⟩ := ih (by simpa [Progress.polled, hanswer, hinspect] using h)
          exact ⟨_, .found hanswer hinspect hlater⟩
        | .error (.because reason) =>
          obtain ⟨events, hlater⟩ :=
            ih (by simpa [Progress.polled, hanswer, hinspect, Attempt.settle] using h)
          exact ⟨_, .turnedDown hanswer hinspect hlater⟩
        | .error (.dangling ref) => simp [Progress.polled, hanswer, hinspect, Attempt.settle] at h
  · rintro ⟨events, h⟩
    -- by induction on the turns, each of which is one turn of the function
    induction h with
    | done => rfl
    | stopped answer => simp [inspectEach, Progress.polled, answer]
    | found answer here _ ih => simpa [inspectEach, Progress.polled, answer, here] using ih
    | turnedDown answer here _ ih => simpa [inspectEach, Progress.polled, answer, here] using ih

/-- How far a run has come that has asked so often since then, has had these findings, and has been
stopped or not. -/
def Progress.after (progress : Progress) (asked : Nat) (findings : List Finding) (canceled : Bool) :
    Progress where
  findings := progress.findings ++ findings
  log := ⟨progress.log.entries ++ findings.map Finding.toDiagnostic⟩
  polls := progress.polls + asked
  canceled

/-- **One turn**: if the answer is no, and looking at the loop does not get lost, the run goes on
with what is reported about the loop. -/
theorem exists_turn (hanswer : stop (progress.polls + 1) = false)
    (hgoing : progress.canceled = false)
    (hlooked : (inspector.inspect tree loop).Answered fun _ => True) :
    ∃ next : Progress, next.polls = progress.polls + 1 ∧ next.canceled = false ∧
      (∀ asked findings canceled, next.after asked findings canceled =
        progress.after (asked + 1) (inspector.reports tree [loop] ++ findings) canceled) ∧
      ∀ rest events last, inspector.Visits tree stop next rest events last →
        inspector.Visits tree stop progress (loop :: rest) (.asked false :: .looked loop :: events)
          last := by
  match hinspect : inspector.inspect tree loop with
  | .ok finding =>
    refine ⟨progress.polled.found finding, rfl, hgoing, fun asked findings canceled => ?_,
      fun rest events last hlater => .found hanswer hinspect hlater⟩
    simp [Progress.after, Progress.found, Progress.polled, DiagnosticLog.add, reports, hinspect,
      Except.toOption, Nat.add_assoc, Nat.add_comm 1]
  | .error (.because reason) =>
    refine ⟨progress.polled, rfl, hgoing, fun asked findings canceled => ?_,
      fun rest events last hlater => .turnedDown hanswer hinspect hlater⟩
    simp [Progress.after, Progress.polled, reports, hinspect, Except.toOption, Nat.add_assoc,
      Nat.add_comm 1]
  | .error (.dangling ref) =>
    rw [hinspect] at hlooked
    cases hlooked

/-- **All turns**, as many as there are loops or as the answer is no, and then perhaps a last one in
which the run is stopped. By induction on the loops. -/
theorem exists_visits (inspector : Inspector) (hwf : tree.WellFormed) (stop : Nat → Bool)
    (progress : Progress) (hloops : ∀ loop ∈ loops, tree.Attached loop)
    (hgoing : progress.canceled = false) :
    ∃ (seen : Nat) (canceled : Bool),
      (seen : ℕ∞) = min (patience stop progress.polls) loops.length ∧
      (canceled = true ↔ patience stop progress.polls < loops.length) ∧
      inspector.Visits tree stop progress loops
        ((loops.take seen).flatMap (fun loop => [.asked false, .looked loop]) ++
          if canceled then [.asked true] else [])
        (progress.after (seen + canceled.toNat) (inspector.reports tree (loops.take seen))
          canceled) := by
  induction loops generalizing progress with
  | nil =>
    -- without loops there is nothing to ask
    have hsame : progress.after 0 [] false = progress := by simp [Progress.after, ← hgoing]
    refine ⟨0, false, by simp, by simp, ?_⟩
    simpa [reports, hsame] using Visits.done
  | cons loop rest ih =>
    obtain ⟨hloop, hrest⟩ := List.forall_mem_cons.1 hloops
    cases hanswer : stop (progress.polls + 1) with
    | true =>
      -- at a yes the run is over, and the loop has not been looked at
      have hstopped : progress.after 1 [] true = progress.polled.stopped := by
        simp [Progress.after, Progress.polled, Progress.stopped]
      refine ⟨0, true, by simp [patience_of_yes hanswer], by simp [patience_of_yes hanswer], ?_⟩
      simpa [reports, hstopped] using Visits.stopped hanswer
    | false =>
      -- at a no there is a turn, and the others come after it
      obtain ⟨next, hpolls, hnext, hafter, hturn⟩ :=
        exists_turn hanswer hgoing (inspect_answered inspector hwf hloop)
      obtain ⟨seen, canceled, hseen, hcanceled, hvisits⟩ := ih next hrest hnext
      rw [hpolls] at hseen hcanceled
      refine ⟨seen + 1, canceled, ?_, ?_, ?_⟩
      · -- one loop more has been seen than in the rest
        rw [patience_of_no hanswer, List.length_cons, Nat.cast_succ, Nat.cast_succ,
          min_add_add_right, hseen]
      · -- and there are more loops than answers here exactly if there are in the rest
        rw [patience_of_no hanswer, List.length_cons, Nat.cast_succ,
          ENat.add_lt_add_iff_right (by simp), hcanceled]
      · -- the events of the turn come first
        rw [hafter] at hvisits
        have hreports : inspector.reports tree (loop :: rest.take seen) =
            inspector.reports tree [loop] ++ inspector.reports tree (rest.take seen) :=
          List.filterMap_append (l := [loop])
        rw [List.take_succ_cons, hreports, Nat.add_right_comm, List.flatMap_cons]
        exact hturn _ _ _ hvisits

/-! ### Runs over a tree -/

/-- The loops of a run are those of the tree. -/
theorem run_of_visits {log : DiagnosticLog} {events : List Event} (hwf : tree.WellFormed)
    (h : inspector.Visits tree stop (.start log polls) (tree.loopsBelow tree.root) events last) :
    inspector.run tree stop log polls = .ok last := by
  rw [run, hwf.forEachLoops_eq, ok_bind]
  exact inspectEach_eq_ok_iff.2 ⟨events, h⟩

/-- **A run gives every loop of the tree an answer**, if it is not stopped. -/
theorem exists_run (inspector : Inspector) (hwf : tree.WellFormed) (log : DiagnosticLog)
    (polls : Nat) : ∃ progress, inspector.run tree never log polls = .ok progress ∧
      progress.findings = inspector.reports tree (tree.loopsBelow tree.root) ∧
      progress.canceled = false := by
  obtain ⟨seen, canceled, hseen, hcanceled, hvisits⟩ := exists_visits inspector hwf
    never (.start log polls) (fun loop hloop => (Tree.mem_loopsBelow.1 hloop).1) rfl
  rw [patience_never, min_eq_right le_top, Nat.cast_inj] at hseen
  rw [patience_never, iff_false_right not_top_lt, Bool.not_eq_true] at hcanceled
  rw [hseen, List.take_length] at hvisits
  exact ⟨_, run_of_visits hwf hvisits, rfl, hcanceled⟩

/-- **A run that is stopped is the beginning of the run that is not.** It looks at the first loops
in preorder, as many as there are or as the answer is no in a row, and at no other. It asks before
each of them, and once more where it is stopped, which is where the answers of no do not last for
all loops. It reports what there is to be reported about these loops, in their order, and tells the
same. If it had not been stopped, the report would go on with what there is to be reported about the
remaining loops. -/
theorem run_isPrefix (inspector : Inspector) (hwf : tree.WellFormed) (stop : Nat → Bool)
    (log : DiagnosticLog) (polls : Nat) :
    ∃ (loops : List NodeId) (seen : Nat) (events : List Event) (progress full : Progress),
      tree.forEachLoops = .ok loops ∧
      (seen : ℕ∞) = min (patience stop polls) loops.length ∧
      inspector.run tree stop log polls = .ok progress ∧
      inspector.Visits tree stop (.start log polls) loops events progress ∧
      events = (loops.take seen).flatMap (fun loop => [.asked false, .looked loop]) ++
        (if progress.canceled then [.asked true] else []) ∧
      progress.polls = polls + seen + progress.canceled.toNat ∧
      progress.report.findings = inspector.reports tree (loops.take seen) ∧
      (progress.report.canceled = true ↔ patience stop polls < loops.length) ∧
      progress.log.entries = log.entries ++ progress.report.diagnostics ∧
      inspector.run tree never log polls = .ok full ∧
      full.report = { progress.report with
        findings := progress.report.findings ++ inspector.reports tree (loops.drop seen),
            canceled := false } := by
  obtain ⟨seen, canceled, hseen, hcanceled, hvisits⟩ := exists_visits inspector hwf
    stop (.start log polls) (fun loop hloop => (Tree.mem_loopsBelow.1 hloop).1) rfl
  obtain ⟨full, hfull, hfindings, hnot⟩ := exists_run inspector hwf log polls
  refine ⟨tree.loopsBelow tree.root, seen, _, _, full, hwf.forEachLoops_eq, hseen,
    run_of_visits hwf hvisits, hvisits, rfl, ?_, ?_, hcanceled, rfl, hfull, ?_⟩
  · exact (Nat.add_assoc _ _ _).symm
  · exact List.nil_append _
  · -- what is reported about all loops is put together from the two parts
    have hparts : full.findings = inspector.reports tree ((tree.loopsBelow tree.root).take seen) ++
        inspector.reports tree ((tree.loopsBelow tree.root).drop seen) := by
      rw [hfindings, reports, reports, reports, ← List.filterMap_append, List.take_append_drop]
    rw [Progress.report, hparts, hnot]
    rfl

/-- The loops `for (String x : xs) print(x);`, `for (String y : xs) return;` and
`for (String z : xs) print(z);`, as a block. -/
def threeLoops : Tree where
  nodes := #[
    ⟨.expr (.name "xs" (some ⟨0⟩)), some ⟨4⟩, Tree.placeOf 0⟩,
    ⟨.expr (.name "x" (some ⟨1⟩)), some ⟨2⟩, Tree.placeOf 1⟩,
    ⟨.expr (.call ⟨none, "print", [⟨1⟩], some ⟨1⟩⟩), some ⟨3⟩, Tree.placeOf 2⟩,
    ⟨.stmt (.expr ⟨2⟩), some ⟨4⟩, Tree.placeOf 3⟩,
    ⟨.stmt (.forEach ⟨⟨1⟩, some ⟨0⟩, some ⟨3⟩⟩), some ⟨13⟩, Tree.placeOf 4⟩,
    ⟨.expr (.name "xs" (some ⟨0⟩)), some ⟨7⟩, Tree.placeOf 5⟩,
    ⟨.stmt (.giveBack none), some ⟨7⟩, Tree.placeOf 6⟩,
    ⟨.stmt (.forEach ⟨⟨2⟩, some ⟨5⟩, some ⟨6⟩⟩), some ⟨13⟩, Tree.placeOf 7⟩,
    ⟨.expr (.name "xs" (some ⟨0⟩)), some ⟨12⟩, Tree.placeOf 8⟩,
    ⟨.expr (.name "z" (some ⟨3⟩)), some ⟨10⟩, Tree.placeOf 9⟩,
    ⟨.expr (.call ⟨none, "print", [⟨9⟩], some ⟨1⟩⟩), some ⟨11⟩, Tree.placeOf 10⟩,
    ⟨.stmt (.expr ⟨10⟩), some ⟨12⟩, Tree.placeOf 11⟩,
    ⟨.stmt (.forEach ⟨⟨3⟩, some ⟨8⟩, some ⟨11⟩⟩), some ⟨13⟩, Tree.placeOf 12⟩,
    ⟨.stmt (.block [⟨4⟩, ⟨7⟩, ⟨12⟩]), none, Tree.placeOf 13⟩]
  vars := #[⟨"xs", .simple "List", .parameter, false⟩,
    ⟨"x", .simple "String", .loopParameter, false⟩,
    ⟨"y", .simple "String", .loopParameter, false⟩,
    ⟨"z", .simple "String", .loopParameter, false⟩]
  root := ⟨13⟩
  scope := .unknown
  revision := 0

/-- Where the third answer is yes, the third loop is not looked at. The second one is, and is turned
down. -/
theorem run_isPrefix_threeLoops :
    ∃ first third progress full,
      (knowing []).run threeLoops (fun asked => asked == 3) .empty 0 = .ok progress ∧
      (knowing []).Visits threeLoops (fun asked => asked == 3) (.start .empty 0) [⟨4⟩, ⟨7⟩, ⟨12⟩]
        [.asked false, .looked ⟨4⟩, .asked false, .looked ⟨7⟩, .asked true] progress ∧
      first.loop = ⟨4⟩ ∧ progress.findings = [first] ∧ progress.canceled = true ∧
      progress.polls = 3 ∧
      progress.log.entries = [first.toDiagnostic] ∧
      (knowing []).run threeLoops never .empty 0 = .ok full ∧
      third.loop = ⟨12⟩ ∧ full.findings = [first, third] ∧ full.canceled = false := by
  have hwf : threeLoops.WellFormed := .of_isInOrder (by decide)
  obtain ⟨loops, seen, events, progress, full, hloops, hseen, hrun, hvisits, hevents, hpolls,
      hfindings, hcanceled,
    hlog, hfull, hreport⟩ := run_isPrefix (knowing []) hwf (fun asked => asked == 3) .empty 0
  obtain rfl : [⟨4⟩, ⟨7⟩, ⟨12⟩] = loops := Except.ok.inj (Eq.trans (by cbv) hloops)
  -- two answers are no before the yes
  have hpatience : patience (fun asked => asked == 3) 0 = 2 := by
    rw [patience_of_no rfl, patience_of_no rfl, patience_of_yes rfl]
    rfl
  obtain rfl : seen = 2 := by
    rw [hpatience] at hseen
    exact Nat.cast_injective (R := ℕ∞) (hseen.trans (by decide))
  have hstopped : progress.canceled = true := by
    refine hcanceled.2 ?_
    rw [hpatience]
    decide
  -- only the first of the two loops that are seen is reported
  obtain ⟨first, hfirst, hloop⟩ : ∃ first, (knowing []).reports threeLoops [⟨4⟩, ⟨7⟩] = [first] ∧
      first.loop = ⟨4⟩ :=
    ⟨_, by cbv, rfl⟩
  -- and the one that is not seen would be
  obtain ⟨third, hthird, hloop'⟩ :
      ∃ third, (knowing []).reports threeLoops [⟨12⟩] = [third] ∧ third.loop = ⟨12⟩ :=
    ⟨_, by cbv, rfl⟩
  have hone : progress.findings = [first] := hfindings.trans hfirst
  refine ⟨first, third, progress, full, hrun, ?_, hloop, hone, hstopped, ?_, ?_, hfull,
    hloop', ?_, ?_⟩
  · simpa [hevents, hstopped] using hvisits
  · simpa [hstopped] using hpolls
  · simpa [Progress.report, Report.diagnostics, hone, DiagnosticLog.empty] using hlog
  · have hboth := congrArg Report.findings hreport
    simpa [Progress.report, hone, hthird] using hboth
  · exact congrArg Report.canceled hreport

end Inspector

end LoopToStream
