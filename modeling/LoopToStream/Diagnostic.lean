import LoopToStream.Code.Basic

/-!
# Diagnostics

A `Diagnostic` is something to tell the user: a message with its level, and perhaps a place, a
code, a context and hints. It is shown in one of two templates, as a header line followed by a
line for the place and one for each hint (`Diagnostic.render`). Notes are shown only on
request.

A `DiagnosticLog` collects diagnostics in the order in which they come.
-/

namespace LoopToStream

/-- How much a diagnostic matters. -/
inductive DiagnosticLevel where
  | info
  | warning
  | error
deriving DecidableEq, Repr

/-- Something to tell the user. -/
structure Diagnostic where
  level : DiagnosticLevel
  message : String
  span : Option Span
  suggestions : List String
  sourceContext : Option String
  code : Option String
deriving DecidableEq, Repr

/-- The two ways of showing a diagnostic. -/
inductive DiagnosticTemplate where
  | pretty
  | plain
deriving DecidableEq, Repr

/-- How diagnostics are shown. -/
structure DiagnosticOptions where
  template : DiagnosticTemplate
  /-- Notes are shown as well. -/
  verbose : Bool
deriving DecidableEq, Repr

/-- What holds unless it is asked for otherwise. -/
def DiagnosticOptions.standard : DiagnosticOptions := ⟨.plain, false⟩

namespace Diagnostic

/-! ### Making diagnostics -/

/-- A bare message. -/
def ofMessage (level : DiagnosticLevel) (message : String) : Diagnostic :=
  ⟨level, message, none, [], none, none⟩

variable (diagnostic : Diagnostic)

/-- The diagnostic with a place. -/
def withSpan (span : Span) : Diagnostic := { diagnostic with span := some span }

/-- The diagnostic with one more hint. -/
def withSuggestion (suggestion : String) : Diagnostic :=
  { diagnostic with suggestions := diagnostic.suggestions ++ [suggestion] }

/-- The diagnostic with a context. -/
def withSourceContext (sourceContext : String) : Diagnostic :=
  { diagnostic with sourceContext := some sourceContext }

/-- The diagnostic with a code. -/
def withCode (code : String) : Diagnostic := { diagnostic with code := some code }

/-! ### Showing diagnostics -/

/-- The diagnostic in one line: its message, its code and its hints. -/
def text : String :=
  let code := match diagnostic.code with
    | some code => " [" ++ code ++ "]"
    | none => ""
  let hints :=
    if diagnostic.suggestions.isEmpty then ""
    else " (hints: " ++ "; ".intercalate diagnostic.suggestions ++ ")"
  diagnostic.message ++ code ++ hints

/-- The place, where there is one and it says something. -/
def place? : Option Span := diagnostic.span.filter fun span => !span.isNull

/-- The lines of the pretty template. -/
def renderPretty (context : String) : List String :=
  let level := match diagnostic.level with
    | .error => "error"
    | .warning => "warning"
    | .info => "note"
  let code := match diagnostic.code with
    | some code => "[" ++ code ++ "]"
    | none => ""
  (level ++ code ++ ": " ++ diagnostic.message ++ " (" ++ context ++ ")") ::
    (diagnostic.place?.toList.map (fun span => "  --> " ++ span.text) ++
      diagnostic.suggestions.map ("   = help: " ++ ·))

/-- The lines of the plain template. -/
def renderPlain (context : String) : List String :=
  let level := match diagnostic.level with
    | .error => "ERROR"
    | .warning => "WARNING"
    | .info => "INFO"
  let code := match diagnostic.code with
    | some code => " (" ++ code ++ ")"
    | none => ""
  ("[" ++ context ++ "] " ++ level ++ ": " ++ diagnostic.message ++ code) ::
    (diagnostic.place?.toList.map (fun span => "   at " ++ span.text) ++
      diagnostic.suggestions.map ("   suggestion: " ++ ·))

/-- The lines that show a diagnostic, in its own context or else in `fallback`; `none` if it is
not shown. -/
def render (fallback : String) (options : DiagnosticOptions) : Option (List String) :=
  if diagnostic.level = .info ∧ !options.verbose then none
  else
    let context := diagnostic.sourceContext.getD fallback
    match options.template with
    | .pretty => some (diagnostic.renderPretty context)
    | .plain => some (diagnostic.renderPlain context)

end Diagnostic

/-! ### Collecting diagnostics -/

/-- Diagnostics in the order in which they have come. -/
structure DiagnosticLog where
  entries : List Diagnostic
deriving DecidableEq, Repr

namespace DiagnosticLog

variable (log : DiagnosticLog)

/-- Nothing has come yet. -/
def empty : DiagnosticLog := ⟨[]⟩

/-- The log with one more diagnostic. -/
def add (diagnostic : Diagnostic) : DiagnosticLog := ⟨log.entries ++ [diagnostic]⟩

/-- One of the diagnostics is an error. -/
def hasErrors : Bool := log.entries.any fun diagnostic => diagnostic.level = .error

/-- The context of diagnostics that have none, unless another is given. -/
def defaultContext : String := "inspection"

/-- The lines that show the diagnostics. -/
def lines (fallback : Option String) (options : DiagnosticOptions) : List String :=
  log.entries.flatMap fun diagnostic =>
    (diagnostic.render (fallback.getD defaultContext) options).getD []

end DiagnosticLog

end LoopToStream
