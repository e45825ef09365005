import LoopToStream.Json.Basic
import LoopToStream.Text

/-!
# The text of JSON values

A value is written with a line for each item and each member and two spaces for each level of
nesting; a list or an object without any is just its brackets. A space follows the colon behind
a name. Something unread is written as `null`.

Text is read by the grammar of JSON, over the list of the characters that remain. Each scanner
takes what it reads off the front and gives the rest; `none` says that the text is not JSON.

A string may escape characters outside of the basic plane as a surrogate pair. An escaped
surrogate without its partner is correct JSON that stands for no text, so a string with one is
read as `Json.unread`, and an object with such a string as a name likewise.

The scanners call each other to a depth that the length of the text bounds
(`Json.ofText?`).
-/

namespace LoopToStream

/-! ### Writing -/

namespace Json

open Layout (Command)

/-- A string in its quotes. -/
def quoted (text : String) : String := Escape.quoted Escape.jsonString text

/-- Entries in brackets: a line for each, with commas between them. -/
def bracketed (left right : String) : List (List Command) → List Command
  | [] => [.write (left ++ right)]
  | entry :: entries =>
    .write left ::
      (Layout.nested (.newline :: (entry ++
        entries.flatMap fun entry => .write "," :: .newline :: entry)) ++
      [.newline, .write right])

mutual

/-- How a value is laid out. -/
def layout : Json → List Command
  | null => [.write "null"]
  | bool b => [.write (if b then "true" else "false")]
  | int n => [.write (toString n)]
  | str text => [.write (quoted text)]
  | list items => bracketed "[" "]" (layoutItems items)
  | object members => bracketed "\x7b" "\x7d" (layoutMembers members)
  | unread => [.write "null"]

/-- How the items of a list are laid out. -/
def layoutItems : List Json → List (List Command)
  | [] => []
  | item :: items => item.layout :: layoutItems items

/-- How the members of an object are laid out. -/
def layoutMembers : List (String × Json) → List (List Command)
  | [] => []
  | (name, value) :: members =>
    (.write (quoted name ++ ": ") :: value.layout) :: layoutMembers members

end

/-- The text of a value, over several lines. -/
def pretty (json : Json) : String := Layout.render ⟨2, true⟩ json.layout

/-- The text of a value, on one line. -/
def compact (json : Json) : String := Layout.render .compact json.layout

end Json

/-! ### Reading -/

namespace Json

/-! ### Blanks, digits and numerals -/

/-- The characters that may stand between the parts of a JSON text. -/
def isBlank (c : Char) : Bool := c = ' ' || c = '\t' || c = '\n' || c = '\r'

/-- The text without the blanks in front. -/
def skipBlanks (cs : List Char) : List Char := cs.dropWhile isBlank

/-- The digits in front, at least one, and the rest. -/
def scanDigits (cs : List Char) : Option (List Char × List Char) :=
  let digits := cs.takeWhile Char.isDigit
  if digits.isEmpty then none else some (digits, cs.dropWhile Char.isDigit)

/-- The number that decimal digits spell. -/
def numberOf (digits : List Char) : Nat :=
  digits.foldl (fun n c => 10 * n + (c.toNat - '0'.toNat)) 0

/-- The whole part of a numeral, which starts with a zero only if it is zero. -/
def scanWhole (cs : List Char) : Option (Nat × List Char) := do
  let (digits, rest) ← scanDigits cs
  if digits.head? = some '0' ∧ digits.length ≠ 1 then none
  else some (numberOf digits, rest)

/-- A fraction, if there is one: whether there is, and the rest. -/
def scanFraction : List Char → Option (Bool × List Char)
  | '.' :: cs => (scanDigits cs).map fun (_, rest) => (true, rest)
  | cs => some (false, cs)

/-- The text without a sign in front. -/
def skipSign : List Char → List Char
  | '+' :: cs => cs
  | '-' :: cs => cs
  | cs => cs

/-- An exponent, if there is one: whether there is, and the rest. -/
def scanExponent : List Char → Option (Bool × List Char)
  | c :: cs =>
    if c = 'e' ∨ c = 'E' then (scanDigits (skipSign cs)).map fun (_, rest) => (true, rest)
    else some (false, c :: cs)
  | [] => some (false, [])

/-- A numeral behind its sign. Only an integer has a value, and there is no negative zero
among the integers. -/
def scanNumeral (negative : Bool) (cs : List Char) : Option (Json × List Char) := do
  let (whole, cs) ← scanWhole cs
  let (fraction, cs) ← scanFraction cs
  let (exponent, cs) ← scanExponent cs
  -- correct JSON in any case
  if fraction || exponent || (negative && whole == 0) then some (unread, cs)
  else some (int (if negative then -(whole : Int) else whole), cs)

/-! ### Strings -/

/-- The value of a hexadecimal digit. -/
def hexValue? (c : Char) : Option Nat :=
  if c.isDigit then some (c.toNat - '0'.toNat)
  else if 'a' ≤ c ∧ c ≤ 'f' then some (c.toNat - 'a'.toNat + 10)
  else if 'A' ≤ c ∧ c ≤ 'F' then some (c.toNat - 'A'.toNat + 10)
  else none

/-- The number of four hexadecimal digits. -/
def scanHexFour : List Char → Option (Nat × List Char)
  | a :: b :: c :: d :: rest => do
    let n := (← hexValue? a) * 4096 + (← hexValue? b) * 256 + (← hexValue? c) * 16
    return (n + (← hexValue? d), rest)
  | _ => none

/-- The first half of a surrogate pair. -/
def isHighSurrogate (n : Nat) : Bool := 0xd800 ≤ n && n < 0xdc00

/-- The second half of a surrogate pair. -/
def isLowSurrogate (n : Nat) : Bool := 0xdc00 ≤ n && n < 0xe000

/-- The second half of a surrogate pair, escaped right here. -/
def scanLowSurrogate (cs : List Char) : Option (Nat × List Char) :=
  match cs with
  | '\\' :: 'u' :: rest => (scanHexFour rest).filter fun (n, _) => isLowSurrogate n
  | _ => none

/-- What an escape by code stands for, from behind its `u`; no character if it is half of a
pair. -/
def scanCode (cs : List Char) : Option (Option Char × List Char) := do
  let (n, rest) ← scanHexFour cs
  if isHighSurrogate n then
    -- without its other half it stands for nothing, and what follows is read on its own
    match scanLowSurrogate rest with
    | some (low, rest) =>
      some (some (Char.ofNat (0x10000 + (n - 0xd800) * 0x400 + (low - 0xdc00))), rest)
    | none => some (none, rest)
  else if isLowSurrogate n then some (none, rest)
  else some (some (Char.ofNat n), rest)

/-- The characters that are escaped by a letter, with the letters. -/
def letterEscapes : List (Char × Char) :=
  [('"', '"'), ('\\', '\\'), ('/', '/'), ('b', Char.ofNat 8), ('f', Char.ofNat 12),
    ('n', '\n'), ('r', '\r'), ('t', '\t')]

/-- One character of a string, escaped or not. Control characters below the space have to be
escaped. -/
def scanChar : List Char → Option (Option Char × List Char)
  | '\\' :: 'u' :: rest => scanCode rest
  | '\\' :: c :: rest => (letterEscapes.lookup c).map fun d => (some d, rest)
  | c :: rest => if c = '\\' ∨ c.toNat < 0x20 then none else some (some c, rest)
  | [] => none

/-- The characters of a string up to its closing quote; no text if one of them is none. -/
def scanText : Nat → List Char → Option (Option (List Char) × List Char)
  | 0, _ => none
  | fuel + 1, cs =>
    match cs with
    | '"' :: rest => some (some [], rest)
    | cs => do
      let (c, rest) ← scanChar cs
      let (text, rest) ← scanText fuel rest
      return (do return (← c) :: (← text), rest)

/-- A string from behind its opening quote. -/
def scanString (cs : List Char) : Option (Option String × List Char) :=
  (scanText (cs.length + 1) cs).map fun (text, rest) => (text.map String.ofList, rest)

/-! ### Values -/

/-- The rest behind a word. -/
def scanWord (word : List Char) (cs : List Char) : Option (List Char) :=
  if word.isPrefixOf cs then some (cs.drop word.length) else none

/-- A member that stands for its name and value if the name is a text. -/
def addMember (name : Option String) (value : Json) :
    Option (List (String × Json)) → Option (List (String × Json))
  | some members => name.map fun name => (name, value) :: members
  | none => none

/-- The object with these members; unread if some name is no text. -/
def ofMembers : Option (List (String × Json)) → Json
  | some members => object members
  | none => unread

mutual

/-- A value, with nothing in front of it. -/
def scanValue : Nat → List Char → Option (Json × List Char)
  | 0, _ => none
  | fuel + 1, cs =>
    match cs with
    | '[' :: rest =>
      match skipBlanks rest with
      | ']' :: rest => some (list [], rest)
      | rest => (scanItems fuel rest).map fun (items, rest) => (list items, rest)
    | '\x7b' :: rest =>
      match skipBlanks rest with
      | '\x7d' :: rest => some (object [], rest)
      | rest => (scanMembers fuel rest).map fun (members, rest) => (ofMembers members, rest)
    | '"' :: rest =>
      (scanString rest).map fun (text, rest) => ((text.map str).getD unread, rest)
    | '-' :: rest => scanNumeral true rest
    | 'n' :: rest => (scanWord ['u', 'l', 'l'] rest).map fun rest => (null, rest)
    | 't' :: rest => (scanWord ['r', 'u', 'e'] rest).map fun rest => (bool true, rest)
    | 'f' :: rest => (scanWord ['a', 'l', 's', 'e'] rest).map fun rest => (bool false, rest)
    | cs => scanNumeral false cs

/-- The items of a list that is not empty, up to its closing bracket. -/
def scanItems : Nat → List Char → Option (List Json × List Char)
  | 0, _ => none
  | fuel + 1, cs => do
    let (item, rest) ← scanValue fuel cs
    match skipBlanks rest with
    | ']' :: rest => return ([item], rest)
    | ',' :: rest =>
      let (items, rest) ← scanItems fuel (skipBlanks rest)
      return (item :: items, rest)
    | _ => none

/-- The members of an object that is not empty, up to its closing brace. -/
def scanMembers : Nat → List Char → Option (Option (List (String × Json)) × List Char)
  | 0, _ => none
  | fuel + 1, cs =>
    match cs with
    | '"' :: rest => do
      let (name, rest) ← scanString rest
      match skipBlanks rest with
      | ':' :: rest =>
        let (value, rest) ← scanValue fuel (skipBlanks rest)
        match skipBlanks rest with
        | '\x7d' :: rest => return (addMember name value (some []), rest)
        | ',' :: rest =>
          let (members, rest) ← scanMembers fuel (skipBlanks rest)
          return (addMember name value members, rest)
        | _ => none
      | _ => none
    | _ => none

end

/-- The value of a text that holds one value, with nothing but blanks around it. -/
def ofText? (text : String) : Option Json := do
  let cs := text.toList
  let (value, rest) ← scanValue (2 * cs.length + 2) (skipBlanks cs)
  if (skipBlanks rest).isEmpty then some value else none

end Json

end LoopToStream
