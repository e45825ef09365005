/-!
# Text

How text is written, whatever it is the text of.

* `Text.trim` drops the blanks at both ends of a text. A blank is a character with the Unicode
  property `White_Space`; the table has all twenty-five of them.
* `Escape.quoted` puts quotes around a text and keeps it to a few characters: the quote, the
  backslash and characters that are hard to see are written as a backslash and what stands for
  them. An `Escape.Style` says which characters have a letter of their own and which are written
  by their code. Three styles are in use: text between double quotes and single characters between
  apostrophes in printed code, and the strings of JSON.
* `Layout.render` turns a list of layout commands into a string. The commands say what is written
  and where a line may end; the options say how wide an indentation step is and whether lines end
  at all. Where they do not, a single space stands for each line end. The commands are run one
  after the other on a `Layout.State`, the text so far with the margin at which the next line will
  start, and text is only ever added (`State.run_text`).
-/

namespace LoopToStream

/-! ### Blanks around text -/

namespace Text

/-- The characters with the property `White_Space`, as ranges of codes. -/
def blankRanges : List (Nat × Nat) :=
  [(0x09, 0x0d), (0x20, 0x20), (0x85, 0x85), (0xa0, 0xa0), (0x1680, 0x1680), (0x2000, 0x200a),
    (0x2028, 0x2029), (0x202f, 0x202f), (0x205f, 0x205f), (0x3000, 0x3000)]

/-- A character with the property `White_Space`. -/
def isBlank (c : Char) : Bool :=
  blankRanges.any fun (first, last) => first ≤ c.toNat && c.toNat ≤ last

/-- The text without the blanks at its two ends. -/
def trim (text : String) : String :=
  String.ofList ((text.toList.dropWhile isBlank).reverse.dropWhile isBlank).reverse

end Text

namespace Escape

/-! ### Hexadecimal digits -/

/-- The digit for a number below sixteen, in lower case. -/
def hexDigit (n : Nat) : Char :=
  if n < 10 then Char.ofNat ('0'.toNat + n) else Char.ofNat ('a'.toNat + (n - 10))

/-- The last four hexadecimal digits of a number. -/
def hexFour (n : Nat) : List Char :=
  [hexDigit (n / 4096 % 16), hexDigit (n / 256 % 16), hexDigit (n / 16 % 16), hexDigit (n % 16)]

/-! ### Styles of escaping -/

/-- Which characters are escaped, and how. -/
structure Style where
  /-- The character around the text, which has to be escaped inside of it. -/
  quote : Char
  /-- Characters that are written as a backslash and a letter. -/
  letters : List (Char × Char)
  /-- Characters that are written as a backslash, `u` and the four digits of their code. -/
  coded : Char → Bool

/-- The control characters of the two control blocks, C0 with `DEL`, and C1. -/
def isControl (c : Char) : Bool :=
  c.toNat < 0x20 || (0x7f ≤ c.toNat && c.toNat ≤ 0x9f)

/-- Line feed, carriage return and tab, with their letters. -/
def lineLetters : List (Char × Char) := [('\n', 'n'), ('\r', 'r'), ('\t', 't')]

/-- Text between double quotes in code. -/
def codeString : Style := ⟨'"', lineLetters, isControl⟩

/-- A character between apostrophes in code. -/
def codeChar : Style := ⟨'\'', lineLetters, isControl⟩

/-- A JSON string: backspace and form feed have letters as well, and nothing from the space on
is written by its code. -/
def jsonString : Style :=
  ⟨'"', (Char.ofNat 8, 'b') :: (Char.ofNat 12, 'f') :: lineLetters, fun c => c.toNat < 0x20⟩

/-! ### Escaping by a style -/

/-- How a character is written. -/
def escapeChar (style : Style) (c : Char) : List Char :=
  if c = style.quote ∨ c = '\\' then ['\\', c]
  else match style.letters.lookup c with
    | some letter => ['\\', letter]
    | none => if style.coded c then '\\' :: 'u' :: hexFour c.toNat else [c]

/-- How a text is written, character by character. -/
def escape (style : Style) (text : String) : String :=
  String.ofList (text.toList.flatMap (escapeChar style))

/-- A text with the quotes around it. -/
def quoted (style : Style) (text : String) : String :=
  String.singleton style.quote ++ escape style text ++ String.singleton style.quote

end Escape

/-! ### Laying out text -/

namespace Layout

/-- How to lay out. -/
structure Options where
  /-- Spaces for each step of indentation. -/
  indentWidth : Nat
  /-- Lines end where they may; otherwise everything stands on one line. -/
  multiline : Bool
deriving DecidableEq, Repr

namespace Options

/-- Four spaces for each step, on several lines. -/
def standard : Options := ⟨4, true⟩

/-- Everything on one line. -/
def compact : Options := ⟨4, false⟩

end Options

/-- One step of laying out. -/
inductive Command where
  /-- The text goes where the last one ended. -/
  | write (text : String)
  /-- A line ends, and the next starts at the margin. -/
  | newline
  /-- The spaces up to the margin. -/
  | margin
  /-- The margin moves in by a step. -/
  | indent
  /-- The margin moves out by a step, at most to the left edge. -/
  | dedent
deriving DecidableEq, Repr

/-- The commands in `inner`, with the margin a step further in. -/
def nested (inner : List Command) : List Command := .indent :: (inner ++ [.dedent])

/-- The text so far, and where the next line starts. -/
structure State where
  margin : Nat
  text : String
deriving DecidableEq, Repr

namespace State

/-- Nothing written yet. -/
def start : State := ⟨0, ""⟩

/-- So many spaces. -/
def spaces (n : Nat) : String := String.ofList (List.replicate n ' ')

variable (options : Options)

/-- What a command adds to the text. -/
def added (margin : Nat) : Command → String
  | .write text => text
  | .newline => if options.multiline then "\n" ++ spaces margin else " "
  | .margin => spaces margin
  | .indent | .dedent => ""

/-- The margin after a command. -/
def moved (margin : Nat) : Command → Nat
  | .indent => margin + options.indentWidth
  | .dedent => margin - options.indentWidth
  | .write _ | .newline | .margin => margin

/-- One command. -/
def step (state : State) (command : Command) : State :=
  ⟨moved options state.margin command, state.text ++ added options state.margin command⟩

/-- All commands, in order. -/
def run (state : State) (commands : List Command) : State := commands.foldl (step options) state

@[simp] theorem run_nil (state : State) : run options state [] = state := rfl

@[simp] theorem run_cons (state : State) (command : Command) (commands : List Command) :
    run options state (command :: commands) =
      run options (step options state command) commands := rfl

theorem run_append (state : State) (first second : List Command) :
    run options state (first ++ second) = run options (run options state first) second := by
  simp [run, List.foldl_append]

/-- Where the margin ends up, and what is added to the text, does not depend on the text that
is there. -/
theorem run_text (margin : Nat) (text : String) (commands : List Command) :
    run options ⟨margin, text⟩ commands =
      ⟨(run options ⟨margin, ""⟩ commands).margin,
        text ++ (run options ⟨margin, ""⟩ commands).text⟩ := by
  induction commands generalizing margin text with
  | nil => simp
  | cons command commands ih =>
    simp only [run_cons, step]
    -- from the next state on, once with the text so far and once without
    rw [ih _ (text ++ _), ih _ ("" ++ _)]
    simp [String.append_assoc]

end State

/-- The text that the commands describe. -/
def render (options : Options) (commands : List Command) : String :=
  (State.start.run options commands).text

end Layout

end LoopToStream
