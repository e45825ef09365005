import LoopToStream.Inspection.Run
import LoopToStream.Json.Code
import LoopToStream.Json.Text

/-!
# Findings and what belongs to them as JSON

The written form of findings, reports, outcomes and diagnostics, of the reasons for turning a
loop down, of signatures and of options. A report is also written as text
(`Report.toText`) and read from text (`Report.ofText?`), in which a field that is written twice
is an error.
-/

namespace LoopToStream

/-! ### Reasons and verdicts -/

instance : Encode Exit where
  encode exit := .str <| match exit with
    | .breaks => "Break"
    | .continues => "Continue"
    | .returns => "Return"
    | .throws => "Throw"

instance : Decode Exit where
  decode? json := do
    match ← json.variant? with
    | ("Break", data) => Json.unit? .breaks data
    | ("Continue", data) => Json.unit? .continues data
    | ("Return", data) => Json.unit? .returns data
    | ("Throw", data) => Json.unit? .throws data
    | _ => none

instance : Encode Rejection where
  encode
    | .notForEach => .str "NotForEach"
    | .languageLevel => .str "LanguageLevel"
    | .incompleteLoop => .str "IncompleteLoop"
    | .notACollection => .str "NotACollection"
    | .abnormalExit exit => .variant "AbnormalExit" (encode exit)
    | .nonFinalCapture name => .variant "NonFinalCapture" (encode name)
    | .checkedException name => .variant "CheckedException" (encode name)
    | .unresolvedCall source => .variant "UnresolvedCall" (encode source)
    | .notAnAppendCall => .str "NotAnAppendCall"
    | .unresolvedTarget => .str "UnresolvedTarget"
    | .targetNotCollection => .str "TargetNotCollection"
    | .genericValueCall => .str "GenericValueCall"
    | .guardHazard => .str "GuardHazard"
    | .trivialBody => .str "TrivialBody"
    | .analysisCanceled => .str "AnalysisCanceled"
    | .analysisTimeout => .str "AnalysisTimeout"

instance : Decode Rejection where
  decode? json := do
    match ← json.variant? with
    | ("NotForEach", data) => Json.unit? .notForEach data
    | ("LanguageLevel", data) => Json.unit? .languageLevel data
    | ("IncompleteLoop", data) => Json.unit? .incompleteLoop data
    | ("NotACollection", data) => Json.unit? .notACollection data
    | ("AbnormalExit", data) => Json.data? .abnormalExit data
    | ("NonFinalCapture", data) => Json.data? .nonFinalCapture data
    | ("CheckedException", data) => Json.data? .checkedException data
    | ("UnresolvedCall", data) => Json.data? .unresolvedCall data
    | ("NotAnAppendCall", data) => Json.unit? .notAnAppendCall data
    | ("UnresolvedTarget", data) => Json.unit? .unresolvedTarget data
    | ("TargetNotCollection", data) => Json.unit? .targetNotCollection data
    | ("GenericValueCall", data) => Json.unit? .genericValueCall data
    | ("GuardHazard", data) => Json.unit? .guardHazard data
    | ("TrivialBody", data) => Json.unit? .trivialBody data
    | ("AnalysisCanceled", data) => Json.unit? .analysisCanceled data
    | ("AnalysisTimeout", data) => Json.unit? .analysisTimeout data
    | _ => none

instance : Encode Verdict where
  encode
    | .safe => .str "Safe"
    | .refused reason => .variant "Unsafe" (encode reason)
    | .undecided reason => .variant "Unknown" (encode reason)

instance : Decode Verdict where
  decode? json := do
    match ← json.variant? with
    | ("Safe", data) => Json.unit? .safe data
    | ("Unsafe", data) => Json.data? .refused data
    | ("Unknown", data) => Json.data? .undecided data
    | _ => none

instance : Encode AnalysisError where
  encode error := .str <| match error with
    | .canceled => "Canceled"
    | .timeout => "Timeout"

instance : Decode AnalysisError where
  decode? json := do
    match ← json.variant? with
    | ("Canceled", data) => Json.unit? .canceled data
    | ("Timeout", data) => Json.unit? .timeout data
    | _ => none

/-! ### Findings, outcomes and reports -/

instance : Encode ActionKind := ⟨fun kind => .str kind.text⟩

instance : Decode ActionKind where
  decode? json := do
    match ← json.variant? with
    | ("Accumulation", data) => Json.unit? .accumulation data
    | ("GeneralAction", data) => Json.unit? .generalAction data
    | _ => none

instance : Encode Finding where
  encode finding :=
    .object [("kind", encode finding.kind), ("anchor", encode finding.anchor),
      ("loop_stmt", encode finding.loop), ("revision", encode finding.revision),
      ("span", encode finding.span), ("message", encode finding.message),
      ("fix_name", encode finding.fixName)]

instance : Decode Finding where
  decode? json := do
    let record ← json.record?
      ["kind", "anchor", "loop_stmt", "revision", "span", "message", "fix_name"]
    return ⟨← record.get? "kind", ← record.get? "anchor", ← record.get? "loop_stmt",
      ← record.get? "revision", ← record.get? "span", ← record.get? "message",
      ← record.get? "fix_name"⟩

instance : Encode Outcome where
  encode outcome :=
    .object [("replacement", encode outcome.replacement), ("folded", encode outcome.folded),
      ("explicit_lambda", encode outcome.explicitLambda),
      ("revision", encode outcome.revision)]

instance : Decode Outcome where
  decode? json := do
    let record ← json.record? ["replacement", "folded", "explicit_lambda", "revision"]
    return ⟨← record.get? "replacement", ← record.get? "folded",
      ← record.get? "explicit_lambda", ← record.get? "revision"⟩

instance : Encode Report where
  encode report :=
    .object [("inspection", encode report.inspection), ("findings", encode report.findings),
      ("canceled", encode report.canceled)]

instance : Decode Report where
  decode? json := do
    let record ← json.record? ["inspection", "findings", "canceled"]
    return ⟨← record.get? "inspection", ← record.get? "findings",
      ← record.get? "canceled"⟩

namespace Report

/-- The text of a report. -/
def toText (report : Report) : String := (encode report).pretty

/-- The report that a text holds. -/
def ofText? (text : String) : Option Report := (Json.ofText? text).bind decode?

end Report

/-! ### Diagnostics -/

instance : Encode DiagnosticLevel where
  encode level := .str <| match level with
    | .info => "Info"
    | .warning => "Warning"
    | .error => "Error"

instance : Decode DiagnosticLevel where
  decode? json := do
    match ← json.variant? with
    | ("Info", data) => Json.unit? .info data
    | ("Warning", data) => Json.unit? .warning data
    | ("Error", data) => Json.unit? .error data
    | _ => none

instance : Encode Diagnostic where
  encode diagnostic :=
    .object [("level", encode diagnostic.level), ("message", encode diagnostic.message),
      ("span", encode diagnostic.span), ("suggestions", encode diagnostic.suggestions),
      ("source_context", encode diagnostic.sourceContext), ("code", encode diagnostic.code)]

instance : Decode Diagnostic where
  decode? json := do
    let record ← json.record?
      ["level", "message", "span", "suggestions", "source_context", "code"]
    return ⟨← record.get? "level", ← record.get? "message", ← record.get? "span",
      ← record.get? "suggestions", ← record.get? "source_context", ← record.get? "code"⟩

/-! ### Signatures and options -/

instance : Encode Signature where
  encode signature :=
    .object [("owner", encode signature.owner), ("name", encode signature.name),
      ("params", encode signature.params), ("type_params", encode signature.typeParams),
      ("throws", encode signature.throws), ("returns", encode signature.returns),
      ("is_static", encode signature.isStatic)]

instance : Encode CollectorStyle where
  encode style := .str <| match style with
    | .qualified => "Qualified"
    | .staticImport => "StaticImport"

instance : Encode Options where
  encode options :=
    .object [("prefer_method_refs", encode options.preferMethodRefs),
      ("collector_style", encode options.collectorStyle),
      ("analysis_budget", encode options.analysisBudget)]

end LoopToStream
