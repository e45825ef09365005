import LoopToStream.Diagnostic
import LoopToStream.Pipeline.Install

/-!
# Inspecting a tree and converting its loops

A `Finding` reports a loop that can be converted. It is tied to the revision of the tree in
which it was found, and is shown at the collection that the loop runs over. A `Report` has the
findings of one run over a tree.

An `Inspector` looks for loops that can become pipelines and converts them.

* `Inspector.inspect` looks at one loop and reports it or turns it down.
* `Inspector.apply` converts the loop of a finding, if the tree is still as it was when the
  loop was found and looking at the loop again gives the same answer.
* `Inspector.run` looks at every loop over a collection, in preorder. Before each it asks
  whether it should stop.
* `Inspector.runAndApply` converts the first loop that is reported and starts over, until none
  is.

Whether a run should stop is a function of how often it has been asked, counted from one.
-/

namespace LoopToStream

/-! ### Findings -/

namespace ActionKind

/-- What is reported about a loop of this sort. -/
def message : ActionKind → String
  | .accumulation => "Can be replaced with collect call"
  | .generalAction => "Can be replaced with foreach call"

/-- The name of what can be done about it. -/
def fixName : ActionKind → String
  | .accumulation => "Replace with collect"
  | .generalAction => "Replace with forEach"

end ActionKind

/-- A loop that can be converted. -/
structure Finding where
  kind : ActionKind
  /-- The collection that the loop runs over, where the finding is shown. -/
  anchor : NodeId
  loop : NodeId
  /-- The revision of the tree in which the loop was found. -/
  revision : UInt64
  span : Span
  message : String
  fixName : String
deriving DecidableEq, Repr

/-- The short name of the inspection, which is the code of its diagnostics. -/
def inspectionName : String := "Convert2streamapi"

/-- What the inspection is about, which is the context of its diagnostics. -/
def inspectionTitle : String := "foreach loop can be collapsed with stream api"

namespace Finding

/-- The finding for a loop over the collection at `anchor`. -/
def of (kind : ActionKind) (tree : Tree) (loop anchor : NodeId) : Lookup Finding :=
  return {
    kind, anchor, loop
    revision := tree.revision
    span := ← tree.span anchor
    message := kind.message
    fixName := kind.fixName }

/-- The warning that tells the user. -/
def toDiagnostic (finding : Finding) : Diagnostic :=
  (Diagnostic.ofMessage .warning finding.message)
    |>.withSpan finding.span
    |>.withCode inspectionName
    |>.withSourceContext inspectionTitle
    |>.withSuggestion finding.fixName

end Finding

/-- The findings of one run over a tree. -/
structure Report where
  inspection : String
  findings : List Finding
  /-- Loops were left out because the run was canceled. -/
  canceled : Bool
deriving DecidableEq, Repr

/-- The warnings that tell the user. -/
def Report.diagnostics (report : Report) : List Diagnostic :=
  report.findings.map Finding.toDiagnostic

/-! ### Inspectors -/

/-- What loops are looked at with. -/
structure Inspector where
  analyzer : Analyzer
  options : Options
deriving Repr

namespace Inspector

variable (inspector : Inspector)

/-! ### Single loops -/

/-- The candidate that a loop is. -/
def candidate (tree : Tree) (loop : NodeId) : Attempt Rejection Candidate :=
  Candidate.of inspector.analyzer tree loop

/-- The report on one loop. -/
def inspect (tree : Tree) (loop : NodeId) : Attempt Rejection Finding := do
  let candidate ← inspector.candidate tree loop
  Finding.of candidate.kind tree loop candidate.source

/-- The plan for the loop of a finding that still holds. -/
def planFor (tree : Tree) (finding : Finding) : Attempt Failure Pipeline := do
  if finding.revision ≠ tree.revision then
    refuse (.stale finding.revision tree.revision)
  let candidate ← (inspector.candidate tree finding.loop).mapReason fun reason =>
    .violation (.noLongerEligible finding.loop reason)
  if candidate.kind ≠ finding.kind then
    refuse (.violation (.kindChanged finding.loop finding.kind candidate.kind))
  Pipeline.of inspector.analyzer inspector.options tree candidate

/-- Puts a pipeline in the place of the loop of a finding. -/
def apply (finding : Finding) : TreeChange Outcome := do
  let plan ← inspector.planFor (← get) finding
  plan.install inspector.analyzer.symbols inspector.options

/-! ### All loops of a tree -/

/-- How far a run has come. -/
structure Progress where
  findings : List Finding
  /-- Where findings are told as they come. -/
  log : DiagnosticLog
  /-- How often the run has asked whether it should stop. -/
  polls : Nat
  canceled : Bool
deriving DecidableEq, Repr

namespace Progress

/-- A run that has just begun, having asked so often before. -/
def start (log : DiagnosticLog) (polls : Nat) : Progress := ⟨[], log, polls, false⟩

/-- The run has asked once more. -/
def polled (progress : Progress) : Progress := { progress with polls := progress.polls + 1 }

/-- The run has a new finding. -/
def found (progress : Progress) (finding : Finding) : Progress :=
  { progress with
    findings := progress.findings ++ [finding]
    log := progress.log.add finding.toDiagnostic }

/-- The run has been stopped. -/
def stopped (progress : Progress) : Progress := { progress with canceled := true }

/-- The report on the findings. -/
def report (progress : Progress) : Report :=
  ⟨inspectionName, progress.findings, progress.canceled⟩

end Progress

/-- Looks at the loops of a list, unless the run is stopped. -/
def inspectEach (tree : Tree) (stop : Nat → Bool) :
    Progress → List NodeId → Lookup Progress
  | progress, [] => return progress
  | progress, loop :: rest => do
    let progress := progress.polled
    if stop progress.polls then return progress.stopped
    match ← (inspector.inspect tree loop).settle with
    | .ok finding => inspectEach tree stop (progress.found finding) rest
    | .error _ => inspectEach tree stop progress rest

/-- Looks at every loop over a collection, unless the run is stopped. -/
def run (tree : Tree) (stop : Nat → Bool) (log : DiagnosticLog) (polls : Nat) :
    Lookup Progress := do
  inspector.inspectEach tree stop (.start log polls) (← tree.forEachLoops)

/-! ### Converting until nothing is left -/

/-- Converts so many loops at most, having asked so often before whether to stop. -/
def convertWithin (stop : Nat → Bool) :
    Nat → Nat → List Outcome → TreeChange (List Outcome)
  | 0, _, outcomes => return outcomes
  | fuel + 1, polls, outcomes => do
    let progress ← TreeChange.ofAttempt
      (inspector.run (← get) stop .empty polls : Lookup Progress)
    match progress.findings with
    | [] => return outcomes
    | finding :: _ =>
      -- the other findings are stale once the first has been applied
      let outcome ← inspector.apply finding
      let outcomes := outcomes ++ [outcome]
      if progress.canceled then return outcomes
      convertWithin stop fuel progress.polls outcomes

/-- Converts loops until no loop is reported or the run is stopped. Each round takes a loop
away and brings none; two rounds more than there are loops leave room for the last look and
for a tree whose parents were not those of its links to begin with. -/
def runAndApply (stop : Nat → Bool) : TreeChange (List Outcome) := do
  let loops ← TreeChange.ofAttempt ((← get).forEachLoops : Lookup (List NodeId))
  inspector.convertWithin stop (loops.length + 2) 0 []

end Inspector

end LoopToStream
