import LoopToStream.Loop.Action
import LoopToStream.Pipeline.Basic
import LoopToStream.Tree.Edit

/-!
# Failures

A `Failure` is why something that was asked for has not been done. Turning a loop down is none:
it is an answer (`Rejection`). The failures are causes, and `Failure.message` is the one place
where they are put into words.

A `Violation` is a plan for a pipeline that contradicts itself or the tree.
-/

namespace LoopToStream

/-- What is wrong with a plan, where there is a place in the source that shows it. -/
inductive Violation where
  | argumentCount (place : Span)
  | notForEach (place : Span)
  | notCollecting (place : Span)
  | needsDeclaration (collector : Collector) (place : Span)
  | lostArgument (place : Span)
  | noLongerEligible (loop : NodeId) (reason : Rejection)
  | kindChanged (loop : NodeId) (reported found : ActionKind)
  /-- Something that whoever asked for the plan has found. -/
  | other (message : String) (place : Option Span)
deriving DecidableEq, Repr

namespace Violation

/-- What is said about it, without the place. -/
def summary : Violation → String
  | argumentCount _ => "accumulation call must have exactly one argument"
  | notForEach _ => "rewrite plan does not point at a foreach loop"
  | notCollecting _ => "only collecting terminals fold into a declaration"
  | needsDeclaration collector _ => collector.text ++ " needs a declaration to fold into"
  | lostArgument _ => "terminal call lost its argument"
  | noLongerEligible loop reason => loop.text ++ " is no longer eligible: " ++ reason.message
  | kindChanged loop reported found =>
    loop.text ++ " was reported as " ++ reported.text ++ " but classifies as " ++ found.text
  | other message _ => message

/-- The place in the source that shows it. -/
def place? : Violation → Option Span
  | argumentCount place | notForEach place | notCollecting place | needsDeclaration _ place
  | lostArgument place => some place
  | noLongerEligible .. | kindChanged .. => none
  | other _ place => place

/-- What is said about it. -/
def message (violation : Violation) : String :=
  match violation.place? with
  | some place =>
    violation.summary ++ " [span " ++ toString place.lo ++ ":" ++ toString place.hi ++ "]"
  | none => violation.summary

end Violation

/-- Why something has not been done. -/
inductive Failure where
  | analysis (error : AnalysisError)
  | violation (violation : Violation)
  /-- It was planned on another state of the tree. -/
  | stale (expected actual : UInt64)
  | invalidEdit (fault : EditFault)
  | generic (message : String)
deriving DecidableEq, Repr

namespace Failure

/-- What is said about it. -/
def message : Failure → String
  | analysis error => "Analysis error: " ++ error.message
  | violation v => "Synthesis invariant violated: " ++ v.message
  | stale expected actual =>
    "Stale finding: computed at revision " ++ toString expected ++ ", tree is at revision " ++
      toString actual
  | invalidEdit fault => "Invalid edit: " ++ fault.message
  | generic message => "Generic error: " ++ message

/-- A refused edit as a failure. -/
def ofCommit : CommitRefusal → Failure
  | .stale expected actual => stale expected actual
  | .invalid fault => invalidEdit fault

end Failure

end LoopToStream
