import LoopToStream.Proofs.Source.Literals
import LoopToStream.Proofs.Tree.Printing

/-!
# Lines and blocks

Code is laid out on several lines or on one, and both are the same text up to the line ends. Only
blocks spread over lines. There is a line end in front of each statement of a block and one in front
of its closing brace, and each line starts as far to the right as there are blocks around it.

Where the lines end is told from the tree alone (`Tree.breaks`): each `Break` knows how many blocks
are open there, and whether the next one to be closed is closed right behind it. What the lines are
is told from the layout commands alone (`Layout.lines`): these are cut at the line ends, and each
line remembers the number of steps that it is indented by. Both kinds of layout are put together
from these lines, on several lines by `Lines.spread` and on one line by `Lines.joined`.

That the two fit together is `Laid`: the lines of printed code are those of the breaks
(`Break.Starts`), and at its end as many blocks are open as at its beginning. The second clause is
what carries the induction over the tree, since it lets code be put behind code (`Laid.append`).

What is written as it stands in the tree must not bring line ends of its own (`Tree.InLines`).
Literals are no concern, since line ends in them are escaped.
-/

namespace LoopToStream

open Layout (Command Plain)

/-! ### Text without line ends -/

/-- There is no line end in the text. -/
def IsLine (text : String) : Prop := '\n' ∉ text.toList

instance (text : String) : Decidable (IsLine text) := inferInstanceAs (Decidable (¬ _))

@[simp] theorem isLine_append {first second : String} :
    IsLine (first ++ second) ↔ IsLine first ∧ IsLine second := by
  simp [IsLine]

theorem isLine_empty : IsLine "" := by decide

theorem isLine_intercalate {separator : String} {texts : List String}
    (hseparator : IsLine separator)
    (h : ∀ text ∈ texts, IsLine text) : IsLine (separator.intercalate texts) := by
  induction texts with
  | nil => exact isLine_empty
  | cons text rest ih =>
    have hrest := ih fun t ht => h t (by simp [ht])
    cases rest with
    | nil => simpa using h text (by simp)
    | cons other rest =>
      -- the separator comes between the first text and the others
      rw [String.intercalate_cons_cons]
      simp only [isLine_append]
      exact ⟨⟨h text (by simp), hseparator⟩, hrest⟩

theorem isLine_of_not_control {text : String} (h : ∀ c ∈ text.toList, Escape.isControl c = false) :
    IsLine text := by
  intro hmem
  exact absurd (h '\n' hmem) (by decide)

theorem isLine_literal (literal : Literal) : IsLine literal.text :=
  isLine_of_not_control literal.isControl_eq_false_of_mem_text

theorem isLine_nodeId (id : NodeId) : IsLine id.text := by
  have hdigits : IsLine (toString id.index) := by
    refine isLine_of_not_control fun digit hmem => ?_
    rw [show (toString id.index).toList = Nat.toDigits 10 id.index from Nat.toList_repr] at hmem
    exact Literal.isControl_of_isDigit (Nat.isDigit_of_mem_toDigits (by decide) (by decide) hmem)
  exact isLine_append.2 ⟨by decide, hdigits⟩

/-! ### What a tree is written with -/

namespace ClassType

mutual

/-- The names of the classes in a type. -/
def names : ClassType → List String
  | ⟨name, args, _⟩ => name :: namesAmong args

/-- The names of the classes in the types of a list. -/
def namesAmong : List ClassType → List String
  | [] => []
  | type :: rest => type.names ++ namesAmong rest

end

mutual

/-- Between the names there is nothing but brackets, commas and blanks. -/
theorem isLine_text (type : ClassType)
    (h : ∀ name ∈ type.names, IsLine name) : IsLine type.text := by
  obtain ⟨name, args, diamond⟩ := type
  obtain ⟨hname, hnames⟩ := List.forall_mem_cons.1 h
  rw [text]
  -- the arguments are left out, written as a diamond or put between brackets
  split
  · exact isLine_append.2 ⟨hname, by decide⟩
  · split
    · exact hname
    · have hargs : IsLine (", ".intercalate (texts args)) :=
        isLine_intercalate (by decide) (isLine_texts args hnames)
      simp only [isLine_append]
      exact ⟨⟨⟨hname, by decide⟩, hargs⟩, by decide⟩

theorem isLine_texts (types : List ClassType) (h : ∀ name ∈ namesAmong types, IsLine name) :
    ∀ text ∈ texts types, IsLine text := by
  cases types with
  | nil => simp [texts]
  | cons type rest =>
    obtain ⟨htype, hrest⟩ := List.forall_mem_append.1 h
    exact List.forall_mem_cons.2 ⟨isLine_text type htype, isLine_texts rest hrest⟩

end

end ClassType

/-- The texts of a statement that are written as they are: labels, and the names in types. -/
def Stmt.texts {ι : Type} : Stmt ι → List String
  | labeled label _ => [label]
  | breakTo label | continueTo label => label.toList
  | tryCatch _ handlers => handlers.flatMap fun handler => handler.types.flatMap ClassType.names
  | block _ | expr _ | declare .. | branch .. | forEach _ | whileLoop .. | giveBack _ | throwValue
      _ | empty => []

/-- The texts of an expression that are written as they are: names, and the names in types. -/
def Expr.texts {ι : Type} : Expr ι → List String
  | name n _ | field _ n _ | methodRef _ n => [n]
  | call c => [c.method]
  | typeName type => type.names
  | create c => c.type.names
  | literal _ | thisRef | superRef | binary .. | unary .. | assign .. | paren _ | lambda .. => []

/-- The texts of a layer that are written as they are. -/
def Kind.texts {ι : Type} : Kind ι → List String
  | stmt s => s.texts
  | expr e => e.texts
  | comment text => [text]

/-- Neither the name of the variable nor one in its type has a line end. -/
def Variable.InLine (v : Variable) : Prop := IsLine v.name ∧ ∀ name ∈ v.type.names, IsLine name

instance (v : Variable) : Decidable v.InLine := inferInstanceAs (Decidable (_ ∧ _))

theorem Variable.InLine.type_text {v : Variable} (h : v.InLine) : IsLine v.type.text :=
  v.type.isLine_text h.2

/-- **No text of the tree has a line end**: no name, no label, no name in a type, and no comment. -/
structure Tree.InLines (tree : Tree) : Prop where
  texts : ∀ node ∈ tree.nodes, ∀ text ∈ node.kind.texts, IsLine text
  vars : ∀ v ∈ tree.vars, v.InLine

namespace Tree.InLines

variable {tree : Tree} (h : tree.InLines)
include h

theorem isLine_texts {id : NodeId} {kind : Kind NodeId} (hkind : tree.kind? id = some kind) :
    ∀ text ∈ kind.texts, IsLine text := by
  obtain ⟨node, hnode, rfl⟩ := kind?_eq_some.1 hkind
  exact h.texts node (Array.mem_of_getElem? hnode)

theorem inLine_var {v : VarId} {declared : Variable} (hvar : tree.var v = .ok declared) :
    declared.InLine := by
  unfold var at hvar
  split at hvar
  · next hfound =>
    cases hvar
    exact h.vars _ (Array.mem_of_getElem? hfound)
  · cases hvar

end Tree.InLines

/-! ### The lines of commands -/

namespace Layout

/-- A text in lines: the first one, and those behind it with the number of steps that they are
indented by. -/
structure Lines where
  first : String
  more : List (Nat × String)

namespace Lines

/-- The lines with something between them, which may depend on how far the next one is indented. -/
def put (between : Nat → String) (lines : Lines) : String :=
  lines.first ++ String.join (lines.more.map fun (steps, line) => between steps ++ line)

/-- On several lines there is a line end between them, and the indentation of the next one. -/
def spread (width : Nat) : Lines → String := put fun steps => "\n" ++ State.spaces (width * steps)

/-- On one line there is a blank instead. -/
def joined : Lines → String := put fun _ => " "

end Lines

/-- How many steps the margin is in behind some commands. -/
def stepsAfter : Nat → List Command → Nat
  | steps, [] => steps
  | steps, .indent :: rest => stepsAfter (steps + 1) rest
  | steps, .dedent :: rest => stepsAfter (steps - 1) rest
  | steps, .write _ :: rest | steps, .newline :: rest | steps,
      .margin :: rest => stepsAfter steps rest

/-- The lines that commands write, from where the margin is in by so many steps. -/
def lines : Nat → List Command → Lines
  | _, [] => ⟨"", []⟩
  | steps, .write text :: rest => ⟨text ++ (lines steps rest).first, (lines steps rest).more⟩
  | steps, .newline :: rest => ⟨"", (steps, (lines steps rest).first) :: (lines steps rest).more⟩
  | steps, .indent :: rest => lines (steps + 1) rest
  | steps, .dedent :: rest => lines (steps - 1) rest
  | steps, .margin :: rest => lines steps rest

theorem stepsAfter_append (steps : Nat) (code behind : List Command) :
    stepsAfter steps (code ++ behind) = stepsAfter (stepsAfter steps code) behind := by
  induction code generalizing steps with
  | nil => rfl
  | cons command code ih => cases command <;> exact ih _

/-- The first line goes on where there is no line end. -/
theorem exists_first_append (steps : Nat) (code behind : List Command) :
    ∃ rest, (lines steps (code ++ behind)).first = (lines steps code).first ++ rest := by
  induction code generalizing steps with
  | nil => exact ⟨_, (String.empty_append).symm⟩
  | cons command code ih =>
    cases command with
    | write text =>
      obtain ⟨rest, hrest⟩ := ih steps
      refine ⟨rest, ?_⟩
      show text ++ (lines steps (code ++ behind)).first = text ++ (lines steps code).first ++ rest
      rw [hrest, String.append_assoc]
    -- what comes behind a line end is on another line
    | newline => exact ⟨"", rfl⟩
    | indent => exact ih (steps + 1)
    | dedent => exact ih (steps - 1)
    | margin => exact ih steps

/-- **On several lines**, what is laid out are the lines at their indentation. By induction on the
commands, with the margin where the steps so far have put it. -/
theorem run_multiline (width steps : Nat) (text : String) {code : List Command} (h : Plain code) :
    State.run ⟨width, true⟩ ⟨width * steps, text⟩ code =
      ⟨width * stepsAfter steps code, text ++ (lines steps code).spread width⟩ := by
  induction code generalizing steps text with
  | nil => simp [lines, stepsAfter, Lines.spread, Lines.put]
  | cons command code ih =>
    obtain ⟨hmargin, hcode⟩ := plain_cons.1 h
    rw [State.run_cons]
    cases command with
    | write written =>
      -- text goes on the line that has been begun
      show State.run _ ⟨width * steps, text ++ written⟩ code = _
      rw [ih steps _ hcode]
      simp [lines, stepsAfter, Lines.spread, Lines.put, String.append_assoc]
    | newline =>
      -- a line break starts a line at the margin
      show State.run _ ⟨width * steps, text ++ ("\n" ++ State.spaces (width * steps))⟩ code = _
      rw [ih steps _ hcode]
      simp [lines, stepsAfter, Lines.spread, Lines.put, String.append_assoc]
    | indent =>
      show State.run _ ⟨width * steps + width, text ++ ""⟩ code = _
      rw [← Nat.mul_succ, ih (steps + 1) _ hcode, String.append_empty]
      rfl
    | dedent =>
      -- at the left edge both sides stay where they are
      show State.run _ ⟨width * steps - width, text ++ ""⟩ code = _
      rw [← Nat.mul_sub_one, ih (steps - 1) _ hcode, String.append_empty]
      rfl
    | margin => exact absurd rfl hmargin

theorem render_multiline (width : Nat) {code : List Command} (h : Plain code) :
    render ⟨width, true⟩ code = (lines 0 code).spread width := by
  have hrun := run_multiline width 0 "" h
  rw [Nat.mul_zero, String.empty_append] at hrun
  exact congrArg State.text hrun

/-- **On one line**, what is laid out are the lines with blanks between them. -/
theorem flat_eq_joined (steps : Nat) (code : List Command) :
    flat code = (lines steps code).joined := by
  induction code generalizing steps with
  | nil => rfl
  | cons command code ih =>
    rw [flat_cons]
    cases command with
    | write text =>
      rw [ih steps]
      exact (String.append_assoc).symm
    -- a line end is a blank on one line, and the blank of the join
    | newline =>
      rw [ih steps]
      simp [lines, Lines.joined, Lines.put, Command.flat, String.append_assoc]
    | indent => exact String.empty_append.trans (ih (steps + 1))
    | dedent => exact String.empty_append.trans (ih (steps - 1))
    | margin => exact String.empty_append.trans (ih steps)

end Layout

open Layout (Lines lines stepsAfter flat)

/-! ### Where lines end -/

/-- A line end: how many blocks are open there, and whether the innermost one is closed right behind
it. -/
structure Break where
  opened : Nat
  closes : Bool
deriving DecidableEq, Repr

namespace Break

/-- How far the next line is indented: as far as there are open blocks, and one step less in front
of a closing brace. -/
def steps (b : Break) : Nat := if b.closes then b.opened - 1 else b.opened

/-- The line behind the break is indented as it should be, and starts with the brace if there is to
be one. -/
def Starts (b : Break) (line : Nat × String) : Prop :=
  line.1 = b.steps ∧ (b.closes = true → ∃ rest, line.2 = "\x7d" ++ rest)

theorem Starts.append {b : Break} {steps : Nat} {line : String} (h : b.Starts (steps, line))
    (more : String) :
    b.Starts (steps, line ++ more) := by
  refine ⟨h.1, fun hcloses => ?_⟩
  obtain ⟨rest, hrest⟩ := h.2 hcloses
  exact ⟨rest ++ more, by rw [show line = _ from hrest, String.append_assoc]⟩

end Break

section Layers

variable {α : Type}

/-- **The line ends of a layer**, with those of its parts, where so many blocks are open around it.
-/
def Kind.breaks (part : Nat → α → List Break) (around : Nat) : Kind α → List Break
  | .stmt (.block stmts) =>
    (stmts.flatMap fun stmt => ⟨around + 1, false⟩ :: part (around + 1) stmt) ++
      if stmts.isEmpty then [] else [⟨around + 1, true⟩]
  | kind => kind.children.flatMap (part around)

theorem Kind.breaks_congr {part part' : Nat → α → List Break} {kind : Kind α}
    (h : ∀ c ∈ kind.children, ∀ around, part around c = part' around c) (around : Nat) :
    kind.breaks part around = kind.breaks part' around := by
  unfold breaks
  split
  · next stmts =>
    congr 1
    exact List.flatMap_congr fun c hc => by rw [h c hc]
  · exact List.flatMap_congr fun c hc => h c hc around

end Layers

namespace Tree

variable {tree : Tree} {id : NodeId} {kind : Kind NodeId}

/-- The line ends of what can be reached by so many steps. -/
def breaksWithin (tree : Tree) : Nat → Nat → NodeId → List Break
  | 0, _, _ => []
  | fuel + 1, around,
      id => ((tree.kind? id).map (Kind.breaks (tree.breaksWithin fuel) around)).getD []

/-- **The line ends of what stands at an id**, in the order of the source. -/
def breaks (tree : Tree) : Nat → NodeId → List Break := tree.breaksWithin tree.pathBound

theorem Grounded.breaks_eq (hg : tree.Grounded id) (hkind : tree.kind? id = some kind)
    (around : Nat) :
    tree.breaks around id = kind.breaks tree.breaks around := by
  -- one step reads the layer, whatever the bound is
  have hsucc : ∀ fuel id kind, tree.kind? id = some kind → ∀ around,
      tree.breaksWithin (fuel + 1) around id = kind.breaks (tree.breaksWithin fuel) around := by
    intro fuel id kind hkind around
    rw [breaksWithin, hkind]
    rfl
  rw [breaks, pathBound, hsucc _ _ _ hkind]
  refine Kind.breaks_congr (fun c hc around => ?_) around
  -- below a grounded node it does not matter that a step has been taken
  refine congrFun (hg.pathBound_eq (f := fun fuel id around => tree.breaksWithin fuel around id) ?_
    (.of_mem (parts_eq_children hkind ▸ hc))) around
  intro i j x hx
  funext around
  cases hfound : tree.kind? x with
  | none => simp [breaksWithin, hfound]
  | some found =>
    rw [hsucc _ _ _ hfound, hsucc _ _ _ hfound]
    exact Kind.breaks_congr
      (fun d hd => congrFun (hx d (.of_mem (parts_eq_children hfound ▸ hd)))) around

end Tree

/-! ### Printed code -/

/-- A command that brings no line end of its own, and does not ask for the margin. -/
def Layout.Command.Tidy : Command → Prop
  | write text => IsLine text
  | margin => False
  | newline | indent | dedent => True

/-- **Printed code with its line ends**, told from how many blocks are open where it starts. As many
are open where it ends. -/
structure Laid (code : List Command) (breaks : Nat → List Break) : Prop where
  tidy : ∀ command ∈ code, command.Tidy
  balanced : ∀ around, stepsAfter around code = around
  starts : ∀ around, List.Forall₂ Break.Starts (breaks around) (lines around code).more

/-- Lines behind lines. The first of the second ones goes on with the last of the first ones. -/
theorem starts_append {firsts seconds : List Break} {steps : Nat} {code behind : List Command}
    (h : List.Forall₂ Break.Starts firsts (lines steps code).more)
    (hbehind : List.Forall₂ Break.Starts seconds (lines (stepsAfter steps code) behind).more) :
    List.Forall₂ Break.Starts (firsts ++ seconds) (lines steps (code ++ behind)).more := by
  induction code generalizing firsts steps with
  | nil =>
    cases h
    exact hbehind
  | cons command code ih =>
    cases command with
    -- a line of the first code goes on with what follows only if it is the last one
    | newline =>
      cases h with
      | cons hstarts hrest =>
        obtain ⟨rest, hfirst⟩ := Layout.exists_first_append steps code behind
        refine .cons ?_ (ih hrest hbehind)
        show Break.Starts _ (steps, (lines steps (code ++ behind)).first)
        rw [hfirst]
        exact hstarts.append rest
    | write text | indent | dedent | margin => exact ih h hbehind

namespace Laid

variable {α : Type} {code first second : List Command} {breaks breaks' : Nat → List Break}
    {written : String}

theorem plain (h : Laid code breaks) : Plain code := fun hmargin => h.tidy _ hmargin

/-- None of its lines is broken. -/
theorem isLine_lines (h : Laid code breaks) (steps : Nat) :
    IsLine (lines steps code).first ∧ ∀ line ∈ (lines steps code).more, IsLine line.2 := by
  have htidy := h.tidy
  clear h
  induction code generalizing steps with
  | nil => exact ⟨isLine_empty, by simp [lines]⟩
  | cons command code ih =>
    obtain ⟨hcommand, hcode⟩ := List.forall_mem_cons.1 htidy
    cases command with
    | write text =>
      -- what is written has no line break in it
      obtain ⟨hfirst, hmore⟩ := ih steps hcode
      exact ⟨isLine_append.2 ⟨hcommand, hfirst⟩, hmore⟩
    | newline =>
      -- the line that has been begun is one of the others now
      obtain ⟨hfirst, hmore⟩ := ih steps hcode
      exact ⟨isLine_empty, List.forall_mem_cons.2 ⟨hfirst, hmore⟩⟩
    | indent => exact ih (steps + 1) hcode
    | dedent => exact ih (steps - 1) hcode
    | margin => exact ih steps hcode

theorem nil : Laid [] fun _ => [] := ⟨by simp, fun _ => rfl, fun _ => .nil⟩

/-- Text in front. -/
theorem write (htext : IsLine written) (h : Laid code breaks) :
    Laid (.write written :: code) breaks :=
  ⟨List.forall_mem_cons.2 ⟨htext, h.tidy⟩, h.balanced, h.starts⟩

theorem single (htext : IsLine written) : Laid [.write written] fun _ => [] := nil.write htext

/-- **Code behind code** starts where as many blocks are open as in front. -/
theorem append (h : Laid first breaks) (h' : Laid second breaks') :
    Laid (first ++ second) fun around => breaks around ++ breaks' around where
  tidy := List.forall_mem_append.2 ⟨h.tidy, h'.tidy⟩
  balanced around := by rw [Layout.stepsAfter_append, h.balanced, h'.balanced]
  starts around := starts_append (h.starts around) ((h.balanced around).symm ▸ h'.starts around)

/-- Text behind. -/
theorem append_text (h : Laid code breaks) (htext : IsLine written) :
    Laid (code ++ [.write written]) breaks := by
  simpa using h.append (Laid.single htext)

/-- Code for each member of a list. -/
theorem flatMap {print : α → List Command} {part : Nat → α → List Break} (l : List α)
    (h : ∀ a ∈ l, Laid (print a) fun around => part around a) :
    Laid (l.flatMap print) fun around => l.flatMap (part around) := by
  induction l with
  | nil => exact nil
  | cons a l ih =>
    obtain ⟨ha, hl⟩ := List.forall_mem_cons.1 h
    exact ha.append (ih hl)

/-- Code on a line of its own, where the innermost block goes on. -/
theorem newline (h : Laid code breaks) :
    Laid (.newline :: code) fun around => ⟨around, false⟩ :: breaks around where
  tidy := List.forall_mem_cons.2 ⟨trivial, h.tidy⟩
  balanced := h.balanced
  starts around := .cons ⟨rfl, fun hcloses => by cases hcloses⟩ (h.starts around)

/-- **Code in a block**, from behind the opening brace to the closing one. -/
theorem block (h : Laid code breaks) :
    Laid (Layout.nested code ++ [.newline, .write "\x7d"]) fun around =>
      breaks (around + 1) ++ [⟨around + 1, true⟩] := by
  have hcode : Layout.nested code ++ [.newline, .write "\x7d"] =
      .indent :: (code ++ [.dedent, .newline, .write "\x7d"]) := by
    simp [Layout.nested]
  rw [hcode]
  refine ⟨?_, fun around => ?_, fun around => ?_⟩
  · have hbrace : (Command.write "\x7d").Tidy := (by decide : IsLine "\x7d")
    refine List.forall_mem_cons.2 ⟨trivial, List.forall_mem_append.2 ⟨h.tidy, ?_⟩⟩
    intro command hmem
    simp only [List.mem_cons, List.not_mem_nil, or_false] at hmem
    -- the three commands that close the block
    rcases hmem with rfl | rfl | rfl
    · exact trivial
    · exact trivial
    · exact hbrace
  · show stepsAfter (around + 1) (code ++ _) = around
    rw [Layout.stepsAfter_append, h.balanced]
    rfl
  · refine starts_append (h.starts (around + 1)) ?_
    -- the block is closed one step further out than its statements stand
    rw [h.balanced]
    exact .cons ⟨rfl, fun _ => ⟨"", rfl⟩⟩ .nil

end Laid

end LoopToStream
