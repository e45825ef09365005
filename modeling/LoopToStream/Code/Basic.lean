/-!
# What code is made of

Below the layers of code there are

* `Span` — the stretch of a source file that a piece of code was read from: the file's number and
  the offsets of its first character and of the one after its last. Spans are carried along and
  reported, never computed with, so they keep the widths in which they are written down: 64 bits
  for the file and 32 for the offsets;
* `NodeId`, `VarId` and `MethodId` — ids, which are positions in the tables that hold code: of
  nodes, of variables and of known methods. An id is only a number; whether it names an entry is a
  question to the table. Where an id is shown, it is a letter in front of the number;
* `ClassType` — a class type as it is written, with its type arguments or with the empty brackets
  `<>` whose arguments the compiler infers;
* `Variable` — a declared variable: its name, its type, what introduced it, and whether it is
  declared `final`;
* `Scope` — where a method body stands: in which class, in a static member or not, and for which
  level of the source language it is written;
* `Literal`, `BinaryOp` and `UnaryOp` — the leaves of expressions and the operators that join them.
  An operator has a spelling and a binding strength; the strengths are those of the printed
  language, so that parentheses can be put exactly where an operand binds looser than its place
  demands.
-/

namespace LoopToStream

/-! ### Source positions -/

/-- The characters from `lo` up to `hi` of file number `file`. -/
structure Span where
  file : UInt64
  lo : UInt32
  hi : UInt32
deriving DecidableEq, Repr

namespace Span

/-- The span that stands for "nowhere" in file 0. -/
def zero : Span := ⟨0, 0, 0⟩

/-- A span says nothing about a place when both its offsets are zero, in whatever file. -/
def isNull (span : Span) : Bool :=
  span.lo == 0 && span.hi == 0

@[simp] theorem isNull_zero : zero.isNull = true := rfl

/-- How a span is shown to people: `Span(file:lo-hi)`. -/
def text (span : Span) : String :=
  s!"Span({span.file}:{span.lo}-{span.hi})"

end Span

/-! ### Ids -/

/-- A position in the node table of a tree. -/
structure NodeId where
  index : Nat
deriving DecidableEq, Repr

/-- A position in the variable table of a tree. -/
structure VarId where
  index : Nat
deriving DecidableEq, Repr

/-- A position in the method table of the known symbols. -/
structure MethodId where
  index : Nat
deriving DecidableEq, Repr

/-- Node 5 is shown as `n5`. -/
def NodeId.text (id : NodeId) : String := "n" ++ toString id.index

/-- Variable 2 is shown as `v2`. -/
def VarId.text (id : VarId) : String := "v" ++ toString id.index

/-- Method 1 is shown as `m1`. -/
def MethodId.text (id : MethodId) : String := "m" ++ toString id.index

/-! ### Types -/

/-- A class type as it is written in source. -/
structure ClassType where
  name : String
  args : List ClassType
  /-- The arguments are left to inference, as in `new ArrayList<>()`. -/
  diamond : Bool
deriving Repr

namespace ClassType

/-- A class without type arguments. -/
def simple (name : String) : ClassType := ⟨name, [], false⟩

/-- The class with its type arguments forgotten. -/
def raw (type : ClassType) : ClassType := simple type.name

@[simp] theorem raw_name (type : ClassType) : type.raw.name = type.name := rfl

@[simp] theorem raw_raw (type : ClassType) : type.raw.raw = type.raw := rfl

mutual

/-- The spelling of a type. Empty brackets win over arguments, and no arguments means no
brackets at all. -/
def text : ClassType → String
  | ⟨name, args, diamond⟩ =>
    if diamond then name ++ "<>"
    else if args.isEmpty then name
    else name ++ "<" ++ ", ".intercalate (texts args) ++ ">"

/-- The spellings of the types of a list. -/
def texts : List ClassType → List String
  | [] => []
  | type :: rest => type.text :: texts rest

end

end ClassType

/-! ### Variables -/

/-- What introduces a variable. -/
inductive VariableKind where
  | localVariable
  | parameter
  | field (isStatic : Bool)
  | loopParameter
  | lambdaParameter
  | catchParameter
deriving DecidableEq, Repr

/-- A declared variable. -/
structure Variable where
  name : String
  type : ClassType
  kind : VariableKind
  /-- Declared with the `final` modifier. -/
  isFinal : Bool
deriving Repr

/-! ### Scopes -/

/-- Where a method body stands. -/
structure Scope where
  enclosingClass : Option String
  /-- The body belongs to a static member, so that there is no implicit receiver. -/
  isStatic : Bool
  languageLevel : UInt32
deriving DecidableEq, Repr

namespace Scope

/-- The level of the source language that is assumed unless another is given; it is also the
first with function literals. -/
def defaultLevel : UInt32 := 8

/-- A body in an instance member of `name`. -/
def inInstance (name : String) : Scope := ⟨some name, false, defaultLevel⟩

/-- A body in a static member of `name`. -/
def inStatic (name : String) : Scope := ⟨some name, true, defaultLevel⟩

/-- A body about whose surroundings nothing is known. -/
def unknown : Scope := ⟨none, true, defaultLevel⟩

/-- The same place, read at another level of the language. -/
def atLevel (scope : Scope) (level : UInt32) : Scope := { scope with languageLevel := level }

end Scope

/-! ### Literals -/

/-- A literal constant. Integers are 64-bit. -/
inductive Literal where
  | int (value : Int64)
  | bool (value : Bool)
  | char (value : Char)
  | str (value : String)
  | null
deriving DecidableEq, Repr

/-! ### Operators with two operands -/

/-- An operator between two operands. -/
inductive BinaryOp where
  | add | sub | mul | div | rem
  | lt | le | gt | ge | eq | ne
  | and | or
  | bitAnd | bitOr | bitXor
deriving DecidableEq, Repr

namespace BinaryOp

/-- The spelling of an operator. -/
def text : BinaryOp → String
  | add => "+"
  | sub => "-"
  | mul => "*"
  | div => "/"
  | rem => "%"
  | lt => "<"
  | le => "<="
  | gt => ">"
  | ge => ">="
  | eq => "=="
  | ne => "!="
  | and => "&&"
  | or => "||"
  | bitAnd => "&"
  | bitOr => "|"
  | bitXor => "^"

/-- Binding strength; higher binds tighter. -/
def precedence : BinaryOp → Nat
  | or => 3
  | and => 4
  | bitOr => 5
  | bitXor => 6
  | bitAnd => 7
  | eq | ne => 8
  | lt | le | gt | ge => 9
  | add | sub => 11
  | mul | div | rem => 12

end BinaryOp

/-! ### Operators with one operand -/

/-- An operator on one operand. -/
inductive UnaryOp where
  | not | neg
  | preInc | preDec
  | postInc | postDec
deriving DecidableEq, Repr

namespace UnaryOp

/-- The spelling of an operator; on which side of the operand it stands is `followsOperand`. -/
def text : UnaryOp → String
  | not => "!"
  | neg => "-"
  | preInc | postInc => "++"
  | preDec | postDec => "--"

/-- The operator is written behind its operand. -/
def followsOperand : UnaryOp → Bool
  | postInc | postDec => true
  | not | neg | preInc | preDec => false

/-- Increments and decrements write their operand. -/
def writesOperand : UnaryOp → Bool
  | preInc | preDec | postInc | postDec => true
  | not | neg => false

/-- Binding strength; an operator behind its operand binds tighter than one in front. -/
def precedence (op : UnaryOp) : Nat :=
  if op.followsOperand then 14 else 13

end UnaryOp

end LoopToStream
