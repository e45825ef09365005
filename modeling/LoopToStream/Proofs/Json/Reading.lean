import LoopToStream.Proofs.Json.Scanning

/-!
# Reading back what is written

A JSON value is laid out over several lines or on one, and in either case it is the same value that
is read back (`Json.ofText?_render`), provided that it holds nothing that was not read itself
(`Json.Readable`).

* `Layout.textAt` — what commands write from a margin on. The commands for a value leave the margin
  where it was (`Layout.Level`), so that a list is written as what its items are written as, with
  blanks in between (`textAt_bracketed`);
* `Json.Spells` — a text is read as a value whatever comes behind it that does not go on with a
  numeral. One lemma for each form of value says how it is spelled, and `Spells.of_readable` puts
  them together by induction on the value.

The scanners are given a number of steps. A value takes at most two for each of its characters, one
for a scanner of values and one for a scanner of items or members.
-/

namespace LoopToStream

/-! ### Laying out from a margin -/

namespace Layout

variable (options : Options) {first second inner commands entry : List Command}
  {entries : List (List Command)} {left right : String} {margin : Nat}

/-- What commands write, from a margin on. -/
def textAt (margin : Nat) (commands : List Command) : List Char :=
  (State.run options ⟨margin, ""⟩ commands).text.toList

/-- Commands that leave the margin where it was. -/
def Level (commands : List Command) : Prop :=
  ∀ margin, (State.run options ⟨margin, ""⟩ commands).margin = margin

/-- What stands between two lines: a line end and the margin, or a space. -/
def gap (margin : Nat) : List Char := (State.added options margin .newline).toList

variable {options}

theorem level_nil : Level options [] := fun _ => rfl

theorem Level.append (hfirst : Level options first) (hsecond : Level options second) :
    Level options (first ++ second) := by
  intro margin
  rw [State.run_append, State.run_text, hfirst margin]
  exact hsecond margin

/-- Behind a command that leaves the margin alone. -/
theorem Level.cons {command : Command}
    (hcommand : ∀ margin, State.moved options margin command = margin)
    (h : Level options commands) : Level options (command :: commands) := by
  intro margin
  rw [State.run_cons, State.step, State.run_text, hcommand margin]
  exact h margin

theorem Level.write (text : String) (h : Level options commands) :
    Level options (.write text :: commands) := h.cons fun _ => rfl

theorem Level.newline (h : Level options commands) : Level options (.newline :: commands) :=
  h.cons fun _ => rfl

/-- The margin moves in and out again by the same. -/
theorem Level.nested (h : Level options inner) : Level options (nested inner) := by
  intro margin
  have hin := h (margin + options.indentWidth)
  rw [Layout.nested, State.run_cons, State.step, State.run_append, State.run_text]
  show (State.run options ⟨margin + options.indentWidth, ""⟩ inner).margin -
    options.indentWidth = margin
  rw [hin, Nat.add_sub_cancel]

theorem Level.flatMap (h : ∀ entry ∈ entries, Level options entry)
    (f : List Command → List Command)
    (hf : ∀ entry, Level options entry → Level options (f entry)) :
    Level options (entries.flatMap f) := by
  induction entries with
  | nil => exact level_nil
  | cons entry entries ih =>
    rw [List.flatMap_cons]
    exact (hf entry (h entry (by simp))).append (ih fun e he => h e (by simp [he]))

/-! What is written is put together from what the commands write. -/

theorem textAt_append (h : Level options first) :
    textAt options margin (first ++ second) =
      textAt options margin first ++ textAt options margin second := by
  unfold textAt
  rw [State.run_append, State.run_text, h margin, String.toList_append]

theorem textAt_write (text : String) :
    textAt options margin (.write text :: commands) =
      text.toList ++ textAt options margin commands := by
  unfold textAt
  rw [State.run_cons, State.step, State.run_text]
  simp [State.moved, State.added]

theorem textAt_newline :
    textAt options margin (.newline :: commands) =
      gap options margin ++ textAt options margin commands := by
  unfold textAt gap
  rw [State.run_cons, State.step, State.run_text]
  simp [State.moved]

theorem textAt_nested :
    textAt options margin (nested inner) = textAt options (margin + options.indentWidth) inner := by
  unfold textAt
  rw [nested, State.run_cons, State.step, State.run_append, State.run_text]
  simp [State.step, State.moved, State.added]

theorem textAt_nil : textAt options margin [] = [] := rfl

theorem textAt_flatMap (h : ∀ entry ∈ entries, Level options entry)
    (f : List Command → List Command)
    (hf : ∀ entry, Level options entry → Level options (f entry)) :
    textAt options margin (entries.flatMap f) =
      entries.flatMap fun entry => textAt options margin (f entry) := by
  induction entries with
  | nil => rfl
  | cons entry entries ih =>
    rw [List.flatMap_cons, textAt_append (hf entry (h entry (by simp))),
      ih fun e he => h e (by simp [he]), List.flatMap_cons]

theorem mem_gap {c : Char} (h : c ∈ gap options margin) : c = ' ' ∨ c = '\n' := by
  rw [gap, State.added] at h
  split at h
  · simp only [State.spaces, String.toList_append, String.toList_ofList, List.mem_append,
      List.mem_replicate] at h
    rcases h with h | ⟨-, rfl⟩
    · exact .inr (by simpa using h)
    · exact .inl rfl
  · exact .inl (by simpa using h)

end Layout

open Layout (Level textAt gap)

namespace Json

variable {options : Layout.Options} {margin : Nat} {entry : List Layout.Command}
  {entries : List (List Layout.Command)} {left right : String}

theorem level_bracketed (h : ∀ entry ∈ entries, Level options entry) :
    Level options (bracketed left right entries) := by
  cases entries with
  | nil => exact Layout.level_nil.write _
  | cons entry entries =>
    have hentries : ∀ e ∈ entries, Level options e := fun e he => h e (by simp [he])
    have hrest := Level.flatMap hentries
      (fun entry => Layout.Command.write "," :: .newline :: entry) fun e he =>
        (he.newline).write ","
    -- what is between the brackets is indented, and the last line end is not
    have hinner := ((h entry (by simp)).append hrest).newline
    exact ((hinner.nested).append ((Layout.level_nil.write right).newline)).write left

/-- **What a list is written as**: its items behind blanks, between brackets and with commas. -/
theorem textAt_bracketed (h : ∀ e ∈ entry :: entries, Level options e) :
    textAt options margin (bracketed left right (entry :: entries)) =
      left.toList ++ (gap options (margin + options.indentWidth) ++
        (textAt options (margin + options.indentWidth) entry ++
        ((entries.flatMap fun e => ',' :: (gap options (margin + options.indentWidth) ++
          textAt options (margin + options.indentWidth) e)) ++
        (gap options margin ++ right.toList)))) := by
  have hentry := h entry (by simp)
  have hentries : ∀ e ∈ entries, Level options e := fun e he => h e (by simp [he])
  -- each further item comes behind a comma and a line end
  have hcomma : ∀ e, Level options e → Level options (.write "," :: .newline :: e) := fun e he =>
    (he.newline).write ","
  have hinner := (hentry.append (Level.flatMap hentries _ hcomma)).newline
  rw [bracketed, Layout.textAt_write, Layout.textAt_append hinner.nested, Layout.textAt_nested,
    Layout.textAt_newline, Layout.textAt_append hentry, Layout.textAt_flatMap hentries _ hcomma,
    Layout.textAt_newline, Layout.textAt_write, Layout.textAt_nil]
  simp only [Layout.textAt_write, Layout.textAt_newline, List.append_assoc, List.append_nil]
  rfl

/-! ### Values and their texts -/

/-- A value that can be read back: it holds nothing that has been read as nothing. -/
inductive Readable : Json → Prop where
  | null : Readable null
  | bool (value : Bool) : Readable (bool value)
  | int (value : Int) : Readable (int value)
  | str (text : String) : Readable (str text)
  | list {items : List Json} (each : ∀ item ∈ items, Readable item) : Readable (list items)
  | object {members : List (String × Json)} (each : ∀ member ∈ members, Readable member.2) :
    Readable (object members)

/-- **A text that is read as a value**, and as nothing else, in front of whatever does not go on
with it. It does not begin with a blank, nor like the end of a list. -/
structure Spells (text : List Char) (json : Json) : Prop where
  opens : ∃ c cs, text = c :: cs ∧ isBlank c = false ∧ c ≠ ']'
  reads : ∀ fuel rest, Ends rest → 2 * text.length ≤ fuel →
    scanValue fuel (text ++ rest) = some (json, rest)

theorem isBlank_of_mem_gap {c : Char} (h : c ∈ gap options margin) : isBlank c = true := by
  rcases Layout.mem_gap h with rfl | rfl <;> rfl

theorem skipBlanks_gap (cs : List Char) : skipBlanks (gap options margin ++ cs) = skipBlanks cs :=
  List.dropWhile_append_of_pos fun _ hc => isBlank_of_mem_gap hc

theorem skipBlanks_cons {c : Char} (h : isBlank c = false) (cs : List Char) :
    skipBlanks (c :: cs) = c :: cs := by
  simp [skipBlanks, h]

/-- A blank does not go on with a numeral, and neither does what may come behind the blanks. -/
theorem ends_gap {cs : List Char} (h : Ends cs) : Ends (gap options margin ++ cs) := by
  intro c rest heq
  cases hgap : gap options margin with
  | nil =>
    rw [hgap] at heq
    exact h c rest heq
  | cons d ds =>
    rw [hgap] at heq
    cases heq
    have hmem : c ∈ gap options margin := by simp [hgap]
    -- a gap is made of line ends and spaces
    rcases Layout.mem_gap hmem with rfl | rfl <;> decide

namespace Spells

variable {text : List Char} {json : Json}

theorem skipBlanks_append (h : Spells text json) (cs : List Char) :
    skipBlanks (text ++ cs) = text ++ cs := by
  obtain ⟨c, rest, rfl, hblank, -⟩ := h.opens
  exact skipBlanks_cons hblank _

/-! ### Leaves -/

theorem null : Spells "null".toList null where
  opens := ⟨'n', _, rfl, by decide, by decide⟩
  reads fuel rest _ hfuel := by
    obtain ⟨fuel, rfl⟩ : ∃ n, fuel = n + 1 := ⟨fuel - 1, by simp at hfuel; omega⟩
    rfl

theorem bool (value : Bool) : Spells (if value then "true" else "false").toList (bool value) := by
  cases value
  · refine ⟨⟨'f', _, rfl, by decide, by decide⟩, fun fuel rest _ hfuel => ?_⟩
    obtain ⟨fuel, rfl⟩ : ∃ n, fuel = n + 1 := ⟨fuel - 1, by simp at hfuel; omega⟩
    rfl
  · refine ⟨⟨'t', _, rfl, by decide, by decide⟩, fun fuel rest _ hfuel => ?_⟩
    obtain ⟨fuel, rfl⟩ : ∃ n, fuel = n + 1 := ⟨fuel - 1, by simp at hfuel; omega⟩
    rfl

/-- A string in its quotes. -/
theorem toList_quoted (text : String) :
    (quoted text).toList = '"' :: ((Escape.escape Escape.jsonString text).toList ++ ['"']) := by
  simp [quoted, Escape.quoted, Escape.jsonString, String.toList_append]

theorem str (text : String) : Spells (quoted text).toList (str text) where
  opens := ⟨'"', _, toList_quoted text, by decide, by decide⟩
  reads fuel rest _ hfuel := by
    rw [toList_quoted] at hfuel ⊢
    obtain ⟨fuel, rfl⟩ : ∃ n, fuel = n + 1 := ⟨fuel - 1, by simp at hfuel; omega⟩
    have hstring := scanString_escape text rest
    rw [List.cons_append, List.append_assoc, List.singleton_append, scanValue, hstring]
    rfl

/-- A digit is none of the characters that the other forms begin with. -/
theorem scanValue_digit {c : Char} (h : c.isDigit = true) (fuel : Nat) (cs : List Char) :
    scanValue (fuel + 1) (c :: cs) = scanNumeral false (c :: cs) := by
  rw [scanValue]
  all_goals
    intro _ heq
    obtain ⟨rfl, -⟩ := List.cons.inj heq
    exact absurd h (by decide)

theorem int (value : Int) : Spells (toString value).toList (int value) := by
  -- a numeral begins with a digit, which is neither blank nor the end of a list
  have hdigits : ∀ n, ∃ c cs, Nat.toDigits 10 n = c :: cs ∧ c.isDigit = true := by
    intro n
    obtain ⟨c, cs, hcons⟩ := List.exists_cons_of_ne_nil (Nat.toDigits_ne_nil (n := n) (b := 10))
    have hmem : c ∈ Nat.toDigits 10 n := by simp [hcons]
    exact ⟨c, cs, hcons, Nat.isDigit_of_mem_toDigits (by decide) (by decide) hmem⟩
  rw [toList_toString_int]
  split
  · next hnonneg =>
    -- the digits alone: the first of them picks the branch of the scanner
    obtain ⟨c, cs, hcons, hdigit⟩ := hdigits value.toNat
    refine ⟨⟨c, cs, hcons, ?_, ?_⟩, fun fuel rest hrest hfuel => ?_⟩
    · unfold isBlank
      simp only [Bool.or_eq_false_iff, decide_eq_false_iff_not]
      refine ⟨⟨⟨?_, ?_⟩, ?_⟩, ?_⟩ <;> (rintro rfl; exact absurd hdigit (by decide))
    · rintro rfl
      exact absurd hdigit (by decide)
    · obtain ⟨fuel, rfl⟩ : ∃ n, fuel = n + 1 := ⟨fuel - 1, by simp [hcons] at hfuel; omega⟩
      have hread := scanNumeral_toDigits false value.toNat (by simp) hrest
      rw [hcons, List.cons_append] at hread ⊢
      rw [scanValue_digit hdigit, hread]
      simp [Int.toNat_of_nonneg hnonneg]
  · next hneg =>
    -- behind a minus sign, so the digits are those of the absolute value
    refine ⟨⟨'-', _, rfl, by decide, by decide⟩, fun fuel rest hrest hfuel => ?_⟩
    obtain ⟨fuel, rfl⟩ : ∃ n, fuel = n + 1 := ⟨fuel - 1, by simp at hfuel; omega⟩
    have hread := scanNumeral_toDigits true (-value).toNat (by omega) hrest
    rw [List.cons_append, scanValue, hread]
    simp only [if_true, Option.some.injEq, Prod.mk.injEq, Json.int.injEq, and_true]
    omega

end Spells

/-! ### Lists and objects -/

/-- The texts of items, each behind a comma and blanks. -/
def commaSeparated {α : Type} (blanks : List Char) (spell : α → List Char) (items : List α) :
    List Char :=
  items.flatMap fun item => ',' :: (blanks ++ spell item)

theorem commaSeparated_cons {α : Type} (blanks : List Char) (spell : α → List Char) (item : α)
    (items : List α) : commaSeparated blanks spell (item :: items) =
      ',' :: (blanks ++ (spell item ++ commaSeparated blanks spell items)) := by
  simp [commaSeparated]

theorem ends_comma (cs : List Char) : Ends (',' :: cs) := ends_cons (by decide)

theorem ends_bracket (cs : List Char) : Ends (']' :: cs) := ends_cons (by decide)

theorem ends_brace (cs : List Char) : Ends ('\x7d' :: cs) := ends_cons (by decide)

variable {inside outside : Nat} {spell : Json → List Char}

/-- **The items of a list** are read back up to the closing bracket. By induction on them. -/
theorem scanItems_append (options : Layout.Options) (inside outside : Nat) (item : Json)
    (items : List Json) (h : ∀ i ∈ item :: items, Spells (spell i) i) (rest : List Char)
    (fuel : Nat)
    (hfuel : 2 * (spell item ++ commaSeparated (gap options inside) spell items).length < fuel) :
    scanItems fuel (spell item ++ (commaSeparated (gap options inside) spell items ++
      (gap options outside ++ ']' :: rest))) = some (item :: items, rest) := by
  induction items generalizing item fuel with
  | nil =>
    -- the last item: behind it, past blanks, the list is closed
    have hitem := h item (by simp)
    obtain ⟨fuel, rfl⟩ : ∃ n, fuel = n + 1 := ⟨fuel - 1, by omega⟩
    have hread := hitem.reads fuel (gap options outside ++ ']' :: rest)
      (ends_gap (ends_bracket rest)) (by simp at hfuel; omega)
    have hnext : skipBlanks (gap options outside ++ ']' :: rest) = ']' :: rest := by
      rw [skipBlanks_gap, skipBlanks_cons (by decide)]
    simp [commaSeparated, scanItems, hread, hnext]
  | cons next items ih =>
    have hitem := h item (by simp)
    -- behind any other item there is a comma, and then the items that the induction is about
    have hnext := h next (by simp)
    simp only [commaSeparated_cons, List.length_append, List.length_cons] at hfuel
    obtain ⟨fuel, rfl⟩ : ∃ n, fuel = n + 1 := ⟨fuel - 1, by omega⟩
    have hread := hitem.reads fuel (commaSeparated (gap options inside) spell (next :: items) ++
      (gap options outside ++ ']' :: rest))
      (by rw [commaSeparated_cons]; exact ends_comma _) (by omega)
    have hrest := ih next (fun i hi => h i (List.mem_cons_of_mem _ hi)) fuel
      (by rw [List.length_append]; omega)
    rw [scanItems, hread, commaSeparated_cons]
    simp only [List.cons_append, List.append_assoc, Option.bind_eq_bind, Option.bind_some]
    rw [skipBlanks_cons (by decide)]
    simp only [skipBlanks_gap, hnext.skipBlanks_append, hrest, Option.bind_some, Option.pure_def]

/-- A member: its name, a colon, a space and its value. -/
def memberText (spell : Json → List Char) (member : String × Json) : List Char :=
  (quoted member.1 ++ ": ").toList ++ spell member.2

theorem memberText_eq (member : String × Json) :
    memberText spell member =
      '"' :: ((Escape.escape Escape.jsonString member.1).toList ++
        '"' :: ':' :: ' ' :: spell member.2) := by
  simp [memberText, String.toList_append, Spells.toList_quoted]

/-- A member begins with the quote of its name. -/
theorem skipBlanks_memberText (member : String × Json) (cs : List Char) :
    skipBlanks (memberText spell member ++ cs) = memberText spell member ++ cs := by
  rw [memberText_eq]
  exact skipBlanks_cons (by decide) _

/-- One member, up to what comes behind its value. -/
theorem scanMembers_name {member : String × Json} (h : Spells (spell member.2) member.2)
    {fuel : Nat} {rest : List Char} (hrest : Ends rest)
    (hfuel : 2 * (memberText spell member).length ≤ fuel) :
    scanMembers (fuel + 1) (memberText spell member ++ rest) =
      match skipBlanks rest with
      | '\x7d' :: rest => some (some [member], rest)
      | ',' :: rest => (scanMembers fuel (skipBlanks rest)).bind fun found =>
        some (addMember (some member.1) member.2 found.1, found.2)
      | _ => none := by
  -- the value is read with the fuel that the name and the colon have left over
  have hread := h.reads fuel rest hrest (by
    rw [memberText_eq] at hfuel
    simp only [List.length_cons, List.length_append] at hfuel
    omega)
  have hname := scanString_escape member.1 (':' :: ' ' :: (spell member.2 ++ rest))
  have hvalue : skipBlanks (' ' :: (spell member.2 ++ rest)) = spell member.2 ++ rest := by
    have hspace := h.skipBlanks_append rest
    simpa [skipBlanks, isBlank] using hspace
  rw [memberText_eq]
  simp only [List.cons_append, List.append_assoc]
  rw [scanMembers, hname]
  simp only [Option.bind_eq_bind, Option.bind_some]
  rw [skipBlanks_cons (by decide)]
  simp only [hvalue, hread, Option.bind_some]
  rfl

/-- **The members of an object** are read back up to the closing brace. By induction on them. -/
theorem scanMembers_append (options : Layout.Options) (inside outside : Nat)
    (member : String × Json) (members : List (String × Json))
    (h : ∀ m ∈ member :: members, Spells (spell m.2) m.2) (rest : List Char) (fuel : Nat)
    (hfuel : 2 * (memberText spell member ++
      commaSeparated (gap options inside) (memberText spell) members).length < fuel) :
    scanMembers fuel (memberText spell member ++
      (commaSeparated (gap options inside) (memberText spell) members ++
        (gap options outside ++ '\x7d' :: rest))) = some (some (member :: members), rest) := by
  induction members generalizing member fuel with
  | nil =>
    obtain ⟨fuel, rfl⟩ : ∃ n, fuel = n + 1 := ⟨fuel - 1, by omega⟩
    -- the last member: behind it, past blanks, the object is closed
    have hends : Ends (gap options outside ++ '\x7d' :: rest) := ends_gap (ends_brace rest)
    have hnext : skipBlanks (gap options outside ++ '\x7d' :: rest) = '\x7d' :: rest := by
      rw [skipBlanks_gap, skipBlanks_cons (by decide)]
    show scanMembers (fuel + 1)
      (memberText spell member ++ (gap options outside ++ '\x7d' :: rest)) = _
    rw [scanMembers_name (h member (by simp)) hends (by simp at hfuel; omega), hnext]
    rfl
  | cons next members ih =>
    simp only [commaSeparated_cons, List.length_append, List.length_cons] at hfuel
    obtain ⟨fuel, rfl⟩ : ∃ n, fuel = n + 1 := ⟨fuel - 1, by omega⟩
    -- behind any other member there is a comma, and then the members of the induction
    have hrest := ih next (fun m hm => h m (List.mem_cons_of_mem _ hm)) fuel
      (by rw [List.length_append]; omega)
    rw [commaSeparated_cons, List.cons_append,
      scanMembers_name (h member (by simp)) (ends_comma _) (by omega), skipBlanks_cons (by decide)]
    simp only [List.append_assoc, skipBlanks_gap, skipBlanks_memberText, hrest, Option.bind_some]
    rfl

namespace Spells

theorem emptyList : Spells "[]".toList (list []) where
  opens := ⟨'[', _, rfl, by decide, by decide⟩
  reads fuel rest _ hfuel := by
    obtain ⟨fuel, rfl⟩ : ∃ n, fuel = n + 1 := ⟨fuel - 1, by simp at hfuel; omega⟩
    rfl

/-- **A list** of items that are spelled, in brackets. -/
theorem list (spell : Json → List Char) {item : Json} {items : List Json}
    (h : ∀ i ∈ item :: items, Spells (spell i) i) :
    Spells ('[' :: (gap options inside ++ (spell item ++
      (commaSeparated (gap options inside) spell items ++ (gap options outside ++ [']'])))))
      (list (item :: items)) where
  opens := ⟨'[', _, rfl, by decide, by decide⟩
  reads fuel rest _ hfuel := by
    have hitem := h item (by simp)
    simp only [List.length_cons, List.length_append] at hfuel
    obtain ⟨fuel, rfl⟩ : ∃ n, fuel = n + 1 := ⟨fuel - 1, by omega⟩
    have hread := scanItems_append options inside outside item items h rest fuel
      (by rw [List.length_append]; omega)
    simp only [List.cons_append, List.append_assoc, List.nil_append]
    rw [scanValue, skipBlanks_gap, hitem.skipBlanks_append]
    split
    · -- an item does not begin like the end of the list
      next heq =>
      obtain ⟨c, cs, hcons, -, hbracket⟩ := hitem.opens
      rw [hcons] at heq
      exact absurd (List.cons.inj heq).1 hbracket
    · rw [hread]
      rfl

theorem emptyObject : Spells "\x7b\x7d".toList (object []) where
  opens := ⟨'\x7b', _, rfl, by decide, by decide⟩
  reads fuel rest _ hfuel := by
    obtain ⟨fuel, rfl⟩ : ∃ n, fuel = n + 1 := ⟨fuel - 1, by simp at hfuel; omega⟩
    rfl

/-- **An object** with members whose values are spelled, in braces. -/
theorem object (spell : Json → List Char) {member : String × Json} {members : List (String × Json)}
    (h : ∀ m ∈ member :: members, Spells (spell m.2) m.2) :
    Spells ('\x7b' :: (gap options inside ++ (memberText spell member ++
      (commaSeparated (gap options inside) (memberText spell) members ++
        (gap options outside ++ ['\x7d'])))))
      (object (member :: members)) where
  opens := ⟨'\x7b', _, rfl, by decide, by decide⟩
  reads fuel rest _ hfuel := by
    simp only [List.length_cons, List.length_append] at hfuel
    obtain ⟨fuel, rfl⟩ : ∃ n, fuel = n + 1 := ⟨fuel - 1, by omega⟩
    have hread := scanMembers_append options inside outside member members h rest fuel
      (by rw [List.length_append]; omega)
    simp only [List.cons_append, List.append_assoc, List.nil_append]
    rw [scanValue, skipBlanks_gap, skipBlanks_memberText]
    split
    · -- a member begins with a quote, so this is not the end of the object
      next heq =>
      rw [memberText_eq, List.cons_append] at heq
      exact absurd (List.cons.inj heq).1 (by decide)
    · rw [hread]
      rfl

end Spells

/-! ### Whole values -/

theorem layoutItems_eq (items : List Json) : layoutItems items = items.map layout := by
  induction items with
  | nil => rfl
  | cons item items ih => rw [layoutItems, ih, List.map_cons]

theorem layoutMembers_eq (members : List (String × Json)) :
    layoutMembers members =
      members.map fun member => .write (quoted member.1 ++ ": ") :: member.2.layout := by
  induction members with
  | nil => rfl
  | cons member members ih => rw [layoutMembers, ih, List.map_cons]

/-- Laying out a value leaves the margin where it was. -/
theorem Readable.level {json : Json} (h : json.Readable) : Level options json.layout := by
  induction h with
  | null => exact Layout.level_nil.write _
  | bool value => exact Layout.level_nil.write _
  | int value => exact Layout.level_nil.write _
  | str text => exact Layout.level_nil.write _
  | list each ih =>
    rw [layout, layoutItems_eq]
    -- brackets take back what they have moved the margin by, so each item is looked at alone
    refine level_bracketed fun entry hentry => ?_
    obtain ⟨item, hitem, rfl⟩ := List.mem_map.1 hentry
    exact ih item hitem
  | object each ih =>
    rw [layout, layoutMembers_eq]
    refine level_bracketed fun entry hentry => ?_
    obtain ⟨member, hmember, rfl⟩ := List.mem_map.1 hentry
    exact (ih member hmember).write _

theorem textAt_single (text : String) : textAt options margin [.write text] = text.toList := by
  rw [Layout.textAt_write, Layout.textAt_nil, List.append_nil]

/-- **A value is spelled by its layout**, whatever the margin and the options. By induction on the
value. -/
theorem Spells.of_readable {json : Json} (h : json.Readable) (options : Layout.Options)
    (margin : Nat) : Spells (textAt options margin json.layout) json := by
  induction h generalizing margin with
  | null =>
    rw [layout, textAt_single]
    exact .null
  | bool value =>
    rw [layout, textAt_single]
    exact .bool value
  | int value =>
    rw [layout, textAt_single]
    exact .int value
  | str text =>
    rw [layout, textAt_single]
    exact .str text
  | @list items each ih =>
    rw [layout, layoutItems_eq]
    cases items with
    | nil =>
      rw [List.map_nil, bracketed, textAt_single]
      exact .emptyList
    | cons item items =>
      -- every item is laid out at the margin inside the brackets
      have hlevel : ∀ entry ∈ (item :: items).map layout, Level options entry := by
        intro entry hentry
        obtain ⟨i, hi, rfl⟩ := List.mem_map.1 hentry
        exact (each i hi).level
      rw [List.map_cons] at hlevel ⊢
      rw [textAt_bracketed hlevel, List.flatMap_map]
      exact Spells.list (fun i => textAt options (margin + options.indentWidth) i.layout)
        fun i hi => ih i hi _
  | @object members each ih =>
    rw [layout, layoutMembers_eq]
    cases members with
    | nil =>
      rw [List.map_nil, bracketed, textAt_single]
      exact .emptyObject
    | cons member members =>
      have hlevel : ∀ entry ∈ (member :: members).map
          (fun m => Layout.Command.write (quoted m.1 ++ ": ") :: m.2.layout),
          Level options entry := by
        intro entry hentry
        obtain ⟨m, hm, rfl⟩ := List.mem_map.1 hentry
        exact ((each m hm).level).write _
      rw [List.map_cons] at hlevel ⊢
      rw [textAt_bracketed hlevel, List.flatMap_map]
      simp only [Layout.textAt_write]
      exact Spells.object (fun j => textAt options (margin + options.indentWidth) j.layout)
        fun m hm => ih m hm _

/-- **What is written is read back**, laid out in whatever way. -/
theorem ofText?_render {json : Json} (h : json.Readable) (options : Layout.Options) :
    ofText? (Layout.render options json.layout) = some json := by
  have hspells := Spells.of_readable h options 0
  have hread := hspells.reads _ [] ends_nil
    (Nat.le_add_right (2 * (textAt options 0 json.layout).length) 2)
  have hopens := hspells.skipBlanks_append []
  rw [List.append_nil] at hread hopens
  have htext : (Layout.render options json.layout).toList = textAt options 0 json.layout := rfl
  rw [ofText?, htext, hopens, hread]
  rfl

end Json

end LoopToStream
