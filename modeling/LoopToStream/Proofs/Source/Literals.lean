import LoopToStream.Proofs.Json.Scanning
import LoopToStream.Tree.Source

/-!
# Literals are read back

Text between quotes is written character by character, so what stands for one character does not
depend on its neighbours. Whoever reads it has to find out again where each character ends: behind a
backslash, in front of text that looks like an escape, at digits that follow the code of a control
character.

`Escape.unescape` is such a reader. It goes from left to right, knows no more than what a backslash
may be followed by, and stops at the first quote that is no part of an escape.

* `unescape_escapeChar` — it reads one character off what stands for one, whatever comes behind it;
* `unescape_escape` — so it reads a whole text, and stops at the quote that closes it;
* `isControl_eq_false_of_mem_quoted` — on its way it meets no control character.

A quoted text is then told from its spelling, and so is where it ends (`quoted_append_inj`). For the
literals of the language this is `Literal.reads_back`.
-/

namespace LoopToStream

namespace Escape

/-! ### Reading -/

/-- What may stand behind a backslash for a character of its own. -/
def marks : List (Char × Char) :=
  [('"', '"'), ('\'', '\''), ('\\', '\\'), ('n', '\n'), ('r', '\r'), ('t', '\t')]

/-- The character with this code in hexadecimal digits, if there is one. -/
def coded? (digits : List Char) : Option Char := do
  let (code, _) ← Json.scanHexFour digits
  if code.isValidChar then some (Char.ofNat code) else none

/-- **Undoing escapes** up to a quote: the text in front of it, and what comes behind it. A
backslash is followed by a mark, or by `u` and four digits. Any other character stands for itself.
-/
def unescape (quote : Char) : List Char → Option (List Char × List Char)
  | '\\' :: 'u' :: a :: b :: c :: d :: rest => do
    let char ← coded? [a, b, c, d]
    let (text, behind) ← unescape quote rest
    return (char :: text, behind)
  | '\\' :: mark :: rest => do
    let char ← marks.lookup mark
    let (text, behind) ← unescape quote rest
    return (char :: text, behind)
  | c :: rest =>
    if c = quote then some ([], rest)
    else do
      let (text, behind) ← unescape quote rest
      return (c :: text, behind)
  | [] => none

/-- What is read off a text that goes on with `rest` behind a character. -/
def readOn (quote c : Char) (rest : List Char) : Option (List Char × List Char) := do
  let (text, behind) ← unescape quote rest
  return (c :: text, behind)

variable {quote : Char} {c : Char}

theorem unescape_quote (hquote : quote ≠ '\\') (rest : List Char) :
    unescape quote (quote :: rest) = some ([], rest) := by
  rw [unescape]
  · exact if_pos rfl
  -- a quote starts no escape
  · rintro _ _ _ _ _ rfl
    exact absurd rfl hquote
  · rintro _ _ rfl
    exact absurd rfl hquote

theorem unescape_plain (hslash : c ≠ '\\') (hquote : c ≠ quote) (rest : List Char) :
    unescape quote (c :: rest) = readOn quote c rest := by
  rw [unescape]
  · exact if_neg hquote
  · rintro _ _ _ _ _ rfl
    exact absurd rfl hslash
  · rintro _ _ rfl
    exact absurd rfl hslash

theorem unescape_mark {mark : Char} (hmark : marks.lookup mark = some c) (rest : List Char) :
    unescape quote ('\\' :: mark :: rest) = readOn quote c rest := by
  rw [unescape]
  · rw [hmark]
    rfl
  · -- a code is marked by a letter that stands for no character
    rintro _ _ _ _ _ rfl
    cases hmark

/-! ### Codes -/

theorem hexValue?_hexDigit : ∀ digit < 16, Json.hexValue? (hexDigit digit) = some digit := by
  decide

/-- Four digits are as many as a code below `0x10000` has. -/
theorem scanHexFour_hexFour {code : Nat} (h : code < 0x10000) :
    Json.scanHexFour (hexFour code) = some (code, []) := by
  have hdigit : ∀ n, Json.hexValue? (hexDigit (n % 16)) = some (n % 16) := fun n =>
    hexValue?_hexDigit _ (Nat.mod_lt _ (by decide))
  simp only [hexFour, Json.scanHexFour, hdigit, Option.bind_eq_bind, Option.bind_some,
    Option.pure_def]
  congr 2
  omega

/-- A character is told from its code. -/
theorem coded?_hexFour (h : c.toNat < 0x10000) : coded? (hexFour c.toNat) = some c := by
  have hvalid : c.toNat.isValidChar := c.valid
  simp [coded?, scanHexFour_hexFour h, hvalid]

theorem unescape_code (h : c.toNat < 0x10000) (rest : List Char) :
    unescape quote ('\\' :: 'u' :: (hexFour c.toNat ++ rest)) = readOn quote c rest := by
  have hcode := coded?_hexFour h
  simp only [hexFour, List.cons_append, List.nil_append] at hcode ⊢
  rw [unescape, hcode]
  rfl

/-! ### What code is written with -/

/-- The style of quoted code, with the quote that is around it. -/
def codeStyle (quote : Char) : Style := ⟨quote, lineLetters, isControl⟩

/-- A quote is a mark for itself and no backslash, and it can be seen. -/
structure IsQuote (quote : Char) : Prop where
  mark : marks.lookup quote = some quote
  ne_slash : quote ≠ '\\'
  not_control : isControl quote = false

theorem isQuote_string : IsQuote '"' := ⟨rfl, by decide, rfl⟩

theorem isQuote_char : IsQuote '\'' := ⟨rfl, by decide, rfl⟩

theorem mem_lineLetters {letter : Char} (h : lineLetters.lookup c = some letter) :
    (c, letter) ∈ lineLetters := by
  obtain ⟨before, after, hletters, -⟩ := List.lookup_eq_some_iff.1 h
  rw [hletters]
  simp

theorem lookup_marks_lineLetters : ∀ pair ∈ lineLetters, marks.lookup pair.2 = some pair.1 := by
  decide

theorem isControl_lineLetters : ∀ pair ∈ lineLetters, isControl pair.2 = false := by
  decide

/-- **A character is read back** from what stands for it. -/
theorem unescape_escapeChar (hquote : IsQuote quote) (c : Char) (rest : List Char) :
    unescape quote (escapeChar (codeStyle quote) c ++ rest) = readOn quote c rest := by
  unfold escapeChar
  split
  · next h =>
    -- a backslash and the quote are marks for themselves
    have hmark : marks.lookup c = some c := by
      rcases h with rfl | rfl
      · exact hquote.mark
      · rfl
    exact unescape_mark hmark rest
  · next hplain =>
    rw [not_or] at hplain
    split
    · next letter hletter =>
      have hmark := lookup_marks_lineLetters _ (mem_lineLetters hletter)
      exact unescape_mark hmark rest
    · split
      · next hcontrol =>
        -- control characters come early, so that four digits are enough for the code
        have hlt : c.toNat < 0x10000 := by
          simp only [codeStyle, isControl, Bool.or_eq_true, Bool.and_eq_true,
            decide_eq_true_eq] at hcontrol
          omega
        exact unescape_code hlt rest
      · -- anything else stands for itself, and is neither the quote nor a backslash
        exact unescape_plain hplain.2 hplain.1 rest

/-- **A text is read back**, and the reader stops at the quote behind it. By induction on the text.
-/
theorem unescape_escape (hquote : IsQuote quote) (text : String) (rest : List Char) :
    unescape quote ((escape (codeStyle quote) text).toList ++ quote :: rest) =
      some (text.toList, rest) := by
  rw [escape, String.toList_ofList]
  induction text.toList with
  | nil => exact unescape_quote hquote.ne_slash rest
  | cons c text ih =>
    rw [List.flatMap_cons, List.append_assoc, unescape_escapeChar hquote, readOn, ih]; rfl

/-- What is written for a character can be seen. -/
theorem isControl_eq_false_of_mem_escapeChar (hquote : IsQuote quote) :
    ∀ written ∈ escapeChar (codeStyle quote) c, isControl written = false := by
  have hdigit : ∀ n, isControl (hexDigit (n % 16)) = false := fun n =>
    (by decide : ∀ digit < 16, isControl (hexDigit digit) = false) _ (Nat.mod_lt _ (by decide))
  unfold escapeChar
  -- the quote and the backslash, the letters, what is written by its code, and all else
  split
  · next h =>
    have hslash : isControl '\\' = false := by decide
    rcases h with rfl | rfl
    · simpa [codeStyle] using ⟨hslash, hquote.not_control⟩
    · simpa using hslash
  · split
    · next letter hletter =>
      simpa using ⟨by decide, isControl_lineLetters _ (mem_lineLetters hletter)⟩
    · split
      · simpa [hexFour, hdigit] using ⟨by decide, by decide⟩
      · next hcontrol => simpa [codeStyle] using hcontrol

/-- **Nothing invisible is written.** -/
theorem isControl_eq_false_of_mem_quoted (hquote : IsQuote quote) (text : String) :
    ∀ written ∈ (quoted (codeStyle quote) text).toList, isControl written = false := by
  intro written hmem
  simp only [quoted, escape, codeStyle, String.toList_append, String.toList_singleton,
    String.toList_ofList, List.mem_append, List.mem_singleton, List.mem_flatMap] at hmem
  rcases hmem with (rfl | ⟨c, -, hc⟩) | rfl
  · exact hquote.not_control
  · exact isControl_eq_false_of_mem_escapeChar hquote written hc
  · exact hquote.not_control

theorem toList_quoted (style : Style) (text : String) :
    (quoted style text).toList = style.quote :: ((escape style text).toList ++ [style.quote]) := by
  simp [quoted]

/-- **A quoted text is told from its spelling**, and so is what comes behind it. -/
theorem quoted_append_inj (hquote : IsQuote quote) {text text' : String} {rest rest' : List Char} :
    (quoted (codeStyle quote) text).toList ++ rest =
      (quoted (codeStyle quote) text').toList ++ rest' ↔
      text = text' ∧ rest = rest' := by
  refine ⟨fun h => ?_, by rintro ⟨rfl, rfl⟩; rfl⟩
  simp only [toList_quoted, codeStyle, List.cons_append, List.append_assoc, List.nil_append] at h
  -- what is read behind the first quote is the text, and what comes behind the second one
  have hread := congrArg (unescape quote) (List.cons.inj h).2
  rw [← codeStyle, unescape_escape hquote, unescape_escape hquote] at hread
  obtain ⟨htext, hrest⟩ := Prod.mk.inj (Option.some.inj hread)
  exact ⟨String.toList_injective htext, hrest⟩

end Escape

open Escape

namespace Literal

theorem isControl_of_isDigit {digit : Char}
    (h : digit.isDigit = true) : isControl digit = false := by
  obtain ⟨hzero, hnine⟩ : 48 ≤ digit.toNat ∧ digit.toNat ≤ 57 := by
    simpa [Char.isDigit, UInt32.le_iff_toNat_le] using h
  have hlow : ¬ digit.toNat < 0x20 := by omega
  have hhigh : ¬ 0x7f ≤ digit.toNat := by omega
  simp [isControl, hlow, hhigh]

/-- The same for a text that is written as it stands. -/
theorem isControl_eq_false_of_all {text : String}
    (h : text.toList.all (fun c => !isControl c) = true) :
    ∀ written ∈ text.toList, isControl written = false := by
  intro written hmem
  simpa using List.all_eq_true.1 h written hmem

/-- **Literals can be seen**: no control character is in the spelling of one. -/
theorem isControl_eq_false_of_mem_text (literal : Literal) :
    ∀ written ∈ literal.text.toList, isControl written = false := by
  cases literal with
  | int value =>
    -- digits, with a sign in front or without
    have hdigits : ∀ n : Nat, ∀ digit ∈ Nat.toDigits 10 n, isControl digit = false :=
      fun n digit hmem =>
      isControl_of_isDigit (Nat.isDigit_of_mem_toDigits (by decide) (by decide) hmem)
    rw [text, Json.toList_toString_int]
    split
    · exact hdigits _
    · simpa using ⟨by decide, hdigits _⟩
  -- words are looked through letter by letter
  | bool value =>
    cases value with
    | false => exact isControl_eq_false_of_all (by rfl : "false".toList.all _ = true)
    | true => exact isControl_eq_false_of_all (by rfl : "true".toList.all _ = true)
  | char c => exact isControl_eq_false_of_mem_quoted isQuote_char _
  | str value => exact isControl_eq_false_of_mem_quoted isQuote_string value
  | null => exact isControl_eq_false_of_all (by rfl : "null".toList.all _ = true)

/-- **Literals in quotes are read back.** Whatever follows, reading what has been written for a
text, or for a single character, comes back to it and stops right behind the closing quote. So what
is written for a text is written for no other one, it ends nowhere else, and no control character is
in it. -/
theorem reads_back :
    (∀ (value : String) (rest : List Char),
      unescape '"' ((escape codeString value).toList ++ '"' :: rest) = some (value.toList, rest)) ∧
    (∀ (c : Char) (rest : List Char),
      unescape '\'' ((escape codeChar (String.singleton c)).toList ++ '\'' :: rest) =
        some ([c], rest)) ∧
    (∀ (value value' : String) (rest rest' : List Char),
      (str value).text.toList ++ rest = (str value').text.toList ++ rest' ↔
        value = value' ∧ rest = rest') ∧
    (∀ (c c' : Char) (rest rest' : List Char),
      (char c).text.toList ++ rest = (char c').text.toList ++ rest' ↔ c = c' ∧ rest = rest') ∧
    ∀ literal : Literal, ∀ written ∈ literal.text.toList, isControl written = false := by
  refine ⟨unescape_escape isQuote_string, fun c rest => ?_,
    fun _ _ _ _ => quoted_append_inj isQuote_string, fun c c' _ _ => ?_,
    isControl_eq_false_of_mem_text⟩
  · have hread := unescape_escape isQuote_char (String.singleton c) rest
    rwa [String.toList_singleton] at hread
  · rw [← String.singleton_inj (c := c)]
    exact quoted_append_inj isQuote_char

/-- A text that could be misread: what looks like an escape, a quote, a control character in front
of a digit, a character of two units, and a backslash at the end. -/
def misleading : String := "\\u0041\"\x077𝄞\\"

theorem reads_back_misleading :
    unescape '"' ((escape codeString misleading).toList ++ ['"', '"']) =
      some (misleading.toList, ['"']) ∧
      '7' ∈ (str misleading).text.toList ∧ isControl '7' = false := by
  obtain ⟨hread, -, -, -, hseen⟩ := reads_back
  have hmem : '7' ∈ (str misleading).text.toList := by decide
  exact ⟨hread misleading ['"'], hmem, hseen (str misleading) '7' hmem⟩

end Literal

end LoopToStream
