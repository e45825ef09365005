import LoopToStream.Flow
import LoopToStream.Symbols.Basic
import LoopToStream.Tree.Source

/-!
# What a loop body does besides computing values

`BodySummary` gathers, for the body of a loop, all that may keep it from being turned into a
function literal: how it leaves the loop, which variables from outside it refers to, which
checked exceptions may come out of it, and which of its calls are not known at all.

A `Rejection` is the reason for which a loop, or one way of converting it, is turned down. A
`Verdict` is the outcome of one check. A check that cannot tell is never read as a pass
(`Verdict.pass?`), and of several checks the first that does not pass decides
(`Verdict.andThen`).

`BodySummary.verdict` passes a body that does nothing of the kind, and names the first thing
it does otherwise, in that order.
-/

namespace LoopToStream

/-! ### Why a loop stays a loop -/

/-- A reason for leaving a loop alone. -/
inductive Rejection where
  | notForEach
  | languageLevel
  | incompleteLoop
  | notACollection
  | abnormalExit (exit : Exit)
  | nonFinalCapture (name : String)
  | checkedException (name : String)
  | unresolvedCall (source : String)
  | notAnAppendCall
  | unresolvedTarget
  | targetNotCollection
  | genericValueCall
  | guardHazard
  | trivialBody
  | analysisCanceled
  | analysisTimeout
deriving DecidableEq, Repr

namespace Rejection

/-- What is said about it. -/
def message : Rejection → String
  | notForEach => "statement is not a foreach loop"
  | languageLevel => "language level below 8"
  | incompleteLoop => "loop has no iterated value or body"
  | notACollection => "iterated value is not a collection"
  | abnormalExit exit => "body contains a " ++ exit.text ++ " leaving the loop"
  | nonFinalCapture name => "`" ++ name ++ "` is not effectively final"
  | checkedException name => "checked exception " ++ name ++ " may escape"
  | unresolvedCall source => "call `" ++ source ++ "` could not be resolved"
  | notAnAppendCall => "action is not a single-argument add call"
  | unresolvedTarget => "accumulation target cannot be identified"
  | targetNotCollection => "accumulation target is not a collection"
  | genericValueCall => "accumulated value comes from a generic method"
  | guardHazard => "a guard condition observes the accumulation target"
  | trivialBody => "body is already a single method reference call"
  | analysisCanceled => "analysis canceled"
  | analysisTimeout => "analysis timed out"

/-- A flow query that is given up leaves the loop alone. -/
def ofAnalysis : AnalysisError → Rejection
  | .canceled => analysisCanceled
  | .timeout => analysisTimeout

end Rejection

/-- The outcome of one check. -/
inductive Verdict where
  | safe
  /-- The check found something that speaks against it. -/
  | refused (reason : Rejection)
  /-- The check could not tell. -/
  | undecided (reason : Rejection)
deriving DecidableEq, Repr

namespace Verdict

/-- The check passed. -/
def isSafe : Verdict → Bool
  | safe => true
  | _ => false

/-- A further check, made only if this one passed. -/
def andThen : Verdict → (Unit → Verdict) → Verdict
  | safe, next => next ()
  | refused reason, _ => refused reason
  | undecided reason, _ => undecided reason

/-- Passing, or the reason for not passing. -/
def pass? : Verdict → Except Rejection Unit
  | safe => .ok ()
  | refused reason => .error reason
  | undecided reason => .error reason

/-- The verdict as an attempt that is declined unless the check passed. -/
def require (verdict : Verdict) : Attempt Rejection Unit :=
  match verdict.pass? with
  | .ok () => .ok ()
  | .error reason => refuse reason

end Verdict

/-! ### What a loop body does -/

/-- What is known about code, and how much may be spent on finding out more. -/
structure Analyzer where
  symbols : Symbols
  flow : Flow
deriving Repr

/-- What the body of a loop does. -/
structure BodySummary where
  exits : List (NodeId × Exit)
  read : List VarId
  written : List VarId
  /-- The variables referred to that are not declared in the body, with their finality. -/
  captured : List (VarId × Bool)
  /-- The checked exceptions that may leave the body, by the names of their classes. -/
  checked : List String
  /-- The calls and creations about which nothing is known. -/
  unresolved : List NodeId
deriving Repr

namespace BodySummary

variable (analyzer : Analyzer) (tree : Tree)

/-- Names are listed in the order of their characters. -/
def nameBefore (a b : String) : Bool := a < b

/-! ### Captured variables -/

/-- A variable is declared at or below `body`. -/
def isDeclaredIn (body : NodeId) (var : VarId) : Lookup Bool := do
  match ← tree.declarationOf? var with
  | some declaration => tree.isAncestor body declaration
  | none => return false

/-- A variable with its finality, unless it is declared in the body. -/
def capture (body : NodeId) (var : VarId) : Attempt AnalysisError (List (VarId × Bool)) := do
  if ← isDeclaredIn tree body var then return []
  else return [(var, ← analyzer.flow.isEffectivelyFinal tree var body)]

/-! ### Exceptions -/

/-- The statement at `up` is a `try` whose protected part is `child` and one of whose handlers
takes exceptions of a class. -/
def catches (name : String) (child up : NodeId) : Bool :=
  match tree.stmt? up with
  | some (.tryCatch protectedPart handlers) =>
    protectedPart = child && handlers.any fun handler =>
      handler.types.any fun type => analyzer.symbols.hierarchy.isSubtype name type.name
  | _ => false

/-- An exception of a class that is thrown at `site` is caught at or below `body`. -/
def isCaughtWithin (body : NodeId) (name : String) (site : NodeId) : Lookup Bool :=
  return (← tree.climb (fun child up =>
    if catches analyzer tree name child up then some true
    else if up = body then some false
    else none) site).getD false

/-- The names of the checked exceptions that the call at `site` may throw out of `body`. -/
def escaping (body site : NodeId) : Lookup (List String) := do
  match analyzer.symbols.resolve? tree site with
  | none => return []
  | some signature =>
    -- an unknown exception counts as checked
    (signature.throws.map ClassType.name).filterM fun name => do
      if analyzer.symbols.hierarchy.isUnchecked name then return false
      else return !(← isCaughtWithin analyzer tree body name site)

/-! ### The summary -/

/-- The calls and creations in `body` outside of function literals. -/
def callsIn (body : NodeId) : Lookup (List NodeId) :=
  return (← tree.descendantsOutsideClosures body).filter fun id =>
    (tree.expr? id).any Expr.isCallLike

/-- What `body` does. -/
def of (body : NodeId) : Attempt AnalysisError BodySummary := do
  -- each of these starts with a budget of its own
  let exits ← analyzer.flow.exits tree body
  let read ← analyzer.flow.used tree body
  let written ← analyzer.flow.written tree body
  let captured ← read.mapM (capture analyzer tree body)
  let calls ← callsIn tree body
  let checked ← calls.mapM fun id => (escaping analyzer tree body id : Lookup _)
  return {
    exits, read, written
    captured := captured.flatten
    checked := Ascending.ofList nameBefore checked.flatten
    unresolved := calls.filter fun id => (analyzer.symbols.resolve? tree id).isNone }

/-- A function literal may stand in for the body. -/
def verdict (summary : BodySummary) : Lookup Verdict := do
  match summary.exits with
  | (_, exit) :: _ => return .refused (.abnormalExit exit)
  | [] =>
    match summary.captured.find? fun capture => !capture.2 with
    | some (var, _) => return .refused (.nonFinalCapture (← tree.var var).name)
    | none =>
      match summary.checked, summary.unresolved with
      | name :: _, _ => return .refused (.checkedException name)
      | [], call :: _ => return .undecided (.unresolvedCall (← tree.text call))
      | [], [] => return .safe

end BodySummary

end LoopToStream
