import Mathlib.Data.List.Chain
import Mathlib.Data.List.TakeWhile

/-!
# The lexemes of a line

Printed code is a row of names, numbers and marks. A mark is an operator, a bracket or the like,
with the blanks that are printed around it. The text of such a row can be taken apart again in one
way only (`Lexeme.eq_of_textOf_eq`), if no two words stand directly behind each other
(`Lexeme.Separated`) and if the marks can be told apart from the words and from each other at their
beginnings (`Spelled`).

Which marks there are depends on the code, so they are a parameter here.
-/

namespace LoopToStream

/-! ### Names -/

/-- The characters that no word contains. -/
def separators : List Char :=
  [' ', '(', ')', '\x7b', '\x7d', ',', '.', ';', '!', '+', '-', '*', '/', '%', '<', '>', '=', '&',
  '|', '^']

/-- There is something, with no digit in front and no separator anywhere. All identifiers of the
printed language are like this. -/
def isIdentifier (text : String) : Bool :=
  match text.toList with
  | [] => false
  | first :: rest => !first.isDigit && (first :: rest).all (· ∉ separators)

/-- The name of a variable, a field or a method. -/
@[ext]
structure Identifier where
  text : String
  isValid : isIdentifier text = true
deriving DecidableEq, Repr

namespace Identifier

/-- The variable `a` of the examples. -/
def a : Identifier := ⟨"a", by decide +kernel⟩

/-- The variable `b` of the examples. -/
def b : Identifier := ⟨"b", by decide +kernel⟩

theorem exists_first (n : Identifier) :
    ∃ first rest, n.text.toList = first :: rest ∧ first.isDigit = false := by
  have hvalid := n.isValid
  unfold isIdentifier at hvalid
  split at hvalid
  · cases hvalid
  · next first rest htext =>
    exact ⟨first, rest, htext, by simpa using (Bool.and_eq_true_iff.1 hvalid).1⟩

theorem not_separator (n : Identifier) : ∀ c ∈ n.text.toList, c ∉ separators := by
  have hvalid := n.isValid
  unfold isIdentifier at hvalid
  split at hvalid
  · cases hvalid
  · next first rest htext =>
    rw [htext]
    simpa using (Bool.and_eq_true_iff.1 hvalid).2

end Identifier

/-! ### Lexemes -/

/-- Marks with their spellings. -/
class Spelled (Mark : Type) where
  spelling : Mark → String
  /-- The first character of a mark is in no word. -/
  separates : ∀ mark, (spelling mark).toList.head?.any (· ∈ separators) = true
  /-- No mark is the beginning of another one. -/
  apart : ∀ mark mark', (spelling mark).toList <+: (spelling mark').toList → mark = mark'

/-- A piece of a line. -/
inductive Lexeme (Mark : Type) where
  | name (name : Identifier)
  | number (value : Nat)
  | mark (mark : Mark)
deriving DecidableEq, Repr

namespace Lexeme

variable {Mark : Type}

/-- Names and numbers. -/
def isWord : Lexeme Mark → Bool
  | name _ | number _ => true
  | mark _ => false

/-- No word stands directly behind another one. -/
def Separated (lexemes : List (Lexeme Mark)) : Prop :=
  lexemes.IsChain fun first second => ¬ (first.isWord = true ∧ second.isWord = true)

section Separated

variable {m : Mark} {lexemes lexemes' : List (Lexeme Mark)}

@[simp] theorem separated_nil : Separated ([] : List (Lexeme Mark)) := List.IsChain.nil

@[simp] theorem separated_singleton (lexeme : Lexeme Mark) : Separated [lexeme] :=
  List.IsChain.singleton _

@[simp] theorem separated_mark_cons : Separated (.mark m :: lexemes) ↔ Separated lexemes := by
  cases lexemes with
  | nil => simp
  | cons first rest => simp [Separated, List.isChain_cons_cons, isWord]

@[simp] theorem separated_cons_mark {word : Lexeme Mark} :
    Separated (word :: .mark m :: lexemes) ↔ Separated lexemes := by
  rw [Separated, List.isChain_cons_cons, ← Separated, separated_mark_cons]
  simp [isWord]

/-- **A mark in between** keeps everything apart. -/
@[simp] theorem separated_append_mark :
    Separated (lexemes ++ .mark m :: lexemes') ↔ Separated lexemes ∧ Separated lexemes' := by
  rw [Separated, List.isChain_append, ← Separated, ← Separated, separated_mark_cons]
  simp [isWord]

end Separated

variable [Spelled Mark]

/-- What is written. -/
def text : Lexeme Mark → String
  | name n => n.text
  | number value => toString value
  | mark m => Spelled.spelling m

@[simp] theorem text_name (n : Identifier) : (name n : Lexeme Mark).text = n.text := rfl

@[simp] theorem text_number (value : Nat) :
    (number value : Lexeme Mark).text = toString value := rfl

/-- The text of one lexeme after the other. -/
def textOf : List (Lexeme Mark) → String
  | [] => ""
  | first :: rest => first.text ++ textOf rest

@[simp] theorem textOf_nil : textOf ([] : List (Lexeme Mark)) = "" := rfl

@[simp] theorem textOf_cons (first : Lexeme Mark) (rest : List (Lexeme Mark)) :
    textOf (first :: rest) = first.text ++ textOf rest := rfl

@[simp] theorem textOf_append (lexemes lexemes' : List (Lexeme Mark)) :
    textOf (lexemes ++ lexemes') = textOf lexemes ++ textOf lexemes' := by
  induction lexemes with
  | nil => simp
  | cons first rest ih => simp [ih, String.append_assoc]

/-! ### Taking a line apart -/

variable {lexeme lexeme' : Lexeme Mark} {rest rest' lexemes lexemes' : List (Lexeme Mark)}

theorem exists_mark (m : Mark) :
    ∃ c rest, (mark m : Lexeme Mark).text.toList = c :: rest ∧ c ∈ separators := by
  obtain ⟨c, hfirst, hc⟩ := Option.any_eq_true _ _ |>.1 (Spelled.separates m)
  obtain ⟨rest, htext⟩ := List.head?_eq_some_iff.1 hfirst
  exact ⟨c, rest, htext, of_decide_eq_true hc⟩

theorem isDigit_number {value : Nat} {c : Char}
    (hc : c ∈ (number value : Lexeme Mark).text.toList) : c.isDigit = true := by
  rw [text, Nat.toString_eq_repr, Nat.toList_repr] at hc
  exact Nat.isDigit_of_mem_toDigits (by decide) (by decide) hc

theorem not_separator_of_isWord (h : lexeme.isWord = true) :
    ∀ c ∈ lexeme.text.toList, c ∉ separators := by
  cases lexeme with
  | name n => exact n.not_separator
  | number value =>
    intro c hc hseparator
    have hnone : ∀ c ∈ separators, c.isDigit = false := by simp [separators]
    simpa [hnone c hseparator] using isDigit_number hc
  | mark m => cases h

theorem text_ne_nil (lexeme : Lexeme Mark) : lexeme.text.toList ≠ [] := by
  cases lexeme with
  | name n =>
    obtain ⟨first, rest, htext, -⟩ := n.exists_first
    simp [text, htext]
  | number value => simp [text, Nat.toString_eq_repr, Nat.toList_repr, Nat.toDigits_ne_nil]
  | mark m =>
    obtain ⟨c, rest, htext, -⟩ := exists_mark m
    simp [htext]

/-- Words are told apart by their texts, a name from a number by the first character. -/
theorem eq_of_isWord (h : lexeme.isWord = true) (h' : lexeme'.isWord = true)
    (heq : lexeme.text = lexeme'.text) : lexeme = lexeme' := by
  have hfirst : ∀ (n : Identifier) (value : Nat), n.text ≠ (number value : Lexeme Mark).text := by
    intro n value heq
    obtain ⟨first, rest, htext, hdigit⟩ := n.exists_first
    have hmem : first ∈ (number value : Lexeme Mark).text.toList := by simp [← heq, htext]
    simp [isDigit_number hmem] at hdigit
  cases lexeme with
  | mark m => cases h
  | name n =>
    cases lexeme' with
    | mark m => cases h'
    | name n' => exact congrArg name (Identifier.ext heq)
    | number value => exact absurd heq (hfirst n value)
  | number value =>
    cases lexeme' with
    | mark m => cases h'
    | name n => exact absurd heq.symm (hfirst n value)
    | number value' =>
      -- a number is the value of its digits
      have hdigits : Nat.toDigits 10 value = Nat.toDigits 10 value' := by
        simpa only [text, Nat.toString_eq_repr, Nat.toList_repr] using congrArg String.toList heq
      exact congrArg number (by simpa using congrArg (Nat.ofDigitChars 10 · 0) hdigits)

/-- What is behind a word starts with a separator, if there is anything. -/
theorem separator_of_isWord (h : Separated (lexeme :: rest)) (hword : lexeme.isWord = true) :
    ∀ c ∈ (textOf rest).toList.head?, c ∈ separators := by
  cases rest with
  | nil => simp
  | cons next rest =>
    -- another word does not come right behind a word
    cases next with
    | mark m =>
      obtain ⟨c, more, htext, hc⟩ := exists_mark m
      simpa [htext, String.toList_append] using hc
    | name n => exact absurd ⟨hword, rfl⟩ (List.isChain_cons_cons.1 h).1
    | number value => exact absurd ⟨hword, rfl⟩ (List.isChain_cons_cons.1 h).1

/-- A word ends where the first separator is. -/
theorem takeWhile_of_isWord (h : Separated (lexeme :: rest)) (hword : lexeme.isWord = true) :
    (textOf (lexeme :: rest)).toList.takeWhile (· ∉ separators) = lexeme.text.toList := by
  have hnone : (textOf rest).toList.takeWhile (· ∉ separators) = [] := by
    have hstart := separator_of_isWord h hword
    cases htext : (textOf rest).toList with
    | nil => rfl
    | cons c more => exact List.takeWhile_cons_of_neg (by simpa using hstart c (by simp [htext]))
  rw [textOf_cons, String.toList_append, List.takeWhile_append_of_pos
    (by simpa using not_separator_of_isWord hword), hnone, List.append_nil]

/-- A row that starts with a mark starts with a separator. -/
theorem takeWhile_mark {m : Mark} :
    (textOf (.mark m :: rest)).toList.takeWhile (· ∉ separators) = [] := by
  obtain ⟨c, more, htext, hc⟩ := exists_mark m
  simp [htext, String.toList_append, hc]

/-- **The first lexeme** is determined by the text. -/
theorem head_unique (h : Separated (lexeme :: rest)) (h' : Separated (lexeme' :: rest'))
    (heq : textOf (lexeme :: rest) = textOf (lexeme' :: rest')) : lexeme = lexeme' := by
  by_cases hword : lexeme.isWord = true
  · -- a word goes up to where the letters and digits end
    have htake := takeWhile_of_isWord h hword
    by_cases hword' : lexeme'.isWord = true
    · rw [heq, takeWhile_of_isWord h' hword'] at htake
      exact eq_of_isWord hword hword' (String.toList_inj.1 htake.symm)
    · obtain ⟨m, rfl⟩ : ∃ m, lexeme' = .mark m := by cases lexeme' <;> simp_all [isWord]
      rw [heq, takeWhile_mark] at htake
      exact absurd htake.symm (text_ne_nil lexeme)
  · obtain ⟨m, rfl⟩ : ∃ m, lexeme = .mark m := by cases lexeme <;> simp_all [isWord]
    by_cases hword' : lexeme'.isWord = true
    · -- a mark has no such beginning, and a word has
      have htake := takeWhile_of_isWord h' hword'
      rw [← heq, takeWhile_mark] at htake
      exact absurd htake.symm (text_ne_nil lexeme')
    · obtain ⟨m', rfl⟩ : ∃ m', lexeme' = .mark m' := by cases lexeme' <;> simp_all [isWord]
      -- both marks are at the beginning of the same text, so one is at the beginning of the other
      have hbegin : (Spelled.spelling m).toList <+: (textOf (.mark m :: rest)).toList := by
        simp [text, String.toList_append]
      have hbegin' : (Spelled.spelling m').toList <+: (textOf (.mark m :: rest)).toList := by
        simp [heq, text, String.toList_append]
      rcases List.prefix_or_prefix_of_prefix hbegin hbegin' with hfirst | hsecond
      · rw [Spelled.apart m m' hfirst]
      · rw [Spelled.apart m' m hsecond]

/-- **A line is taken apart in one way only.** -/
theorem eq_of_textOf_eq (h : Separated lexemes) (h' : Separated lexemes')
    (heq : textOf lexemes = textOf lexemes') : lexemes = lexemes' := by
  -- a lexeme is never written as nothing
  have hempty : ∀ (first : Lexeme Mark) rest, textOf (first :: rest) ≠ "" := by
    intro first rest heq
    have htext : first.text.toList ++ (textOf rest).toList = [] := by
      rw [← String.toList_append, ← textOf_cons, heq]
      rfl
    exact text_ne_nil first (List.append_eq_nil_iff.1 htext).1
  induction lexemes generalizing lexemes' with
  | nil =>
    cases lexemes' with
    | nil => rfl
    | cons first rest => exact absurd heq.symm (hempty first rest)
  | cons first rest ih =>
    cases lexemes' with
    | nil => exact absurd heq (hempty first rest)
    | cons first' rest' =>
      -- a separator or the end bounds the first lexeme on both sides
      obtain rfl := head_unique h h' heq
      have hrest : textOf rest = textOf rest' := by simpa using heq
      exact congrArg (first :: ·) (ih h.tail h'.tail hrest)

end Lexeme

end LoopToStream
