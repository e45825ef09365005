import LoopToStream.Flow
import LoopToStream.Text

/-!
# Options

How pipelines are written, and how much may be spent on finding out whether they can be. The
options can be taken from environment variables (`Options.ofEnvironment`). A switch is on if
its variable has a value other than nothing, `0` and `false`, blanks around it aside; a budget
that is not a number is no budget.
-/

namespace LoopToStream

/-- How the methods that make collectors are named. -/
inductive CollectorStyle where
  /-- With their class: `Collectors.toList()`. -/
  | qualified
  /-- Alone, as after a static import: `toList()`. -/
  | staticImport
deriving DecidableEq, Repr

/-- How loops are converted. -/
structure Options where
  /-- Functions that only forward are written as method references. -/
  preferMethodRefs : Bool
  collectorStyle : CollectorStyle
  /-- How many nodes a flow query may look at; missing if as many as there are. -/
  analysisBudget : Option Nat
deriving DecidableEq, Repr

namespace Options

/-- What holds unless it is asked for otherwise. -/
def standard : Options := ⟨true, .qualified, none⟩

/-- Flow queries within the budget, not canceled. -/
def flow (options : Options) : Flow := ⟨options.analysisBudget, false⟩

/-! ### The environment -/

/-- The values with which a switch is off, blanks around them aside. -/
def offValues : List String := ["", "0", "false", "FALSE", "False"]

/-- The state of a switch with this value. -/
def isOn (value : String) : Bool := !offValues.contains (Text.trim value)

/-- The number that decimal digits spell, perhaps behind a plus sign, within 64 bits. -/
def budget? (value : String) : Option Nat :=
  let cs := (Text.trim value).toList
  let digits := if cs.head? = some '+' then cs.tail else cs
  if digits.isEmpty || !digits.all Char.isDigit then none
  else
    let n := digits.foldl (fun n c => 10 * n + (c.toNat - '0'.toNat)) 0
    if n < UInt64.size then some n else none

/-- The options that the environment asks for, given the values of its variables. -/
def ofEnvironment (value? : String → Option String) : Options where
  preferMethodRefs := !(value? "STREAM_MIGRATE_NO_METHOD_REFS").any isOn
  collectorStyle :=
    if (value? "STREAM_MIGRATE_STATIC_COLLECTORS").any isOn then .staticImport else .qualified
  analysisBudget := (value? "STREAM_MIGRATE_ANALYSIS_BUDGET").bind budget?

end Options

end LoopToStream
