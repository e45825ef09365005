import LoopToStream.Json.Text
import Mathlib.Data.List.Basic
import Mathlib.Data.List.TakeWhile

/-!
# What a scanner takes off the front

A scanner reads as far as it can. What has been written is read back to its end, and no further, if
what follows cannot be taken for more of the same:

* `scanString_escape` — a string ends at its closing quote, whatever follows. Inside of it, each
  character is read back from what it has been written as (`scanChar_escapeChar`), and none is
  written as something that starts with a quote;
* `scanNumeral_toDigits` — a numeral ends where there is no digit, point or exponent behind it
  (`Ends`). A closing bracket, a comma and a blank are none of these.
-/

namespace LoopToStream

namespace Json

/-! ### Characters of a string -/

/-- The escapes by a letter are the ones that are read, and none of the letters is a `u`. -/
theorem lookup_letterEscapes :
    ∀ pair ∈ Escape.jsonString.letters, pair.2 ≠ 'u' ∧
      letterEscapes.lookup pair.2 = some pair.1 := by
  decide

/-- A character below the space, from its code. -/
theorem scanCode_hexFour {n : Nat} (h : n < 0x20) (rest : List Char) :
    scanCode (Escape.hexFour n ++ rest) = some (some (Char.ofNat n), rest) := by
  have hall : ∀ n < 0x20, (hexValue? (Escape.hexDigit (n / 4096 % 16)) = some 0 ∧
      hexValue? (Escape.hexDigit (n / 256 % 16)) = some 0 ∧
      hexValue? (Escape.hexDigit (n / 16 % 16)) = some (n / 16) ∧
      hexValue? (Escape.hexDigit (n % 16)) = some (n % 16)) := by decide
  obtain ⟨h₃, h₂, h₁, h₀⟩ := hall n h
  have hcode : scanHexFour (Escape.hexFour n ++ rest) = some (n, rest) := by
    simp only [Escape.hexFour, List.cons_append, List.nil_append, scanHexFour, h₃, h₂, h₁, h₀,
      Option.bind_eq_bind, Option.bind_some, Option.pure_def]
    congr 2
    omega
  -- so small a code is no half of a pair
  have hhigh : isHighSurrogate n = false := by simp [isHighSurrogate]; omega
  have hlow : isLowSurrogate n = false := by simp [isLowSurrogate]; omega
  simp [scanCode, hcode, hhigh, hlow]

/-- A backslash and a letter that is no `u`. -/
theorem scanChar_letter {letter : Char} (h : letter ≠ 'u') (rest : List Char) :
    scanChar ('\\' :: letter :: rest) = (letterEscapes.lookup letter).map fun c =>
      (some c, rest) := by
  rw [scanChar]
  rintro rfl
  exact h rfl

/-- A character that is not escaped stands for itself. -/
theorem scanChar_plain {c : Char} (hslash : c ≠ '\\') (hcode : ¬ c.toNat < 0x20)
    (rest : List Char) : scanChar (c :: rest) = some (some c, rest) := by
  rw [scanChar]
  · rw [if_neg (by simp [hslash, hcode])]
  -- the two forms with a backslash do not apply
  · rintro _ rfl
    exact absurd rfl hslash
  · rintro _ _ rfl
    exact absurd rfl hslash

/-- **A character is read back** from what it has been written as. -/
theorem scanChar_escapeChar (c : Char) (rest : List Char) :
    scanChar (Escape.escapeChar Escape.jsonString c ++ rest) = some (some c, rest) := by
  unfold Escape.escapeChar
  split
  · next h =>
    -- a quote or a backslash stands for itself behind a backslash
    rcases h with rfl | rfl <;> rfl
  · next hplain =>
    rw [not_or] at hplain
    split
    · -- a letter of its own, which is read back as the character it is for
      next letter hletter =>
      obtain ⟨before, after, hletters, -⟩ := List.lookup_eq_some_iff.1 hletter
      obtain ⟨hu, hback⟩ := lookup_letterEscapes (c, letter) (by simp [hletters])
      show scanChar ('\\' :: letter :: rest) = _
      rw [scanChar_letter hu, hback]
      rfl
    · split
      · next hcode =>
        -- any other control character is written as its code
        have hcode : c.toNat < 0x20 := of_decide_eq_true hcode
        show scanCode (Escape.hexFour c.toNat ++ rest) = _
        rw [scanCode_hexFour hcode, Char.ofNat_toNat]
      · next hcode =>
        exact scanChar_plain hplain.2 (by simpa [Escape.jsonString] using hcode) rest

/-! ### Strings -/

/-- What a character is written as is not empty, and does not start with a quote. -/
theorem escapeChar_eq_cons (c : Char) :
    ∃ first others, Escape.escapeChar Escape.jsonString c = first :: others ∧ first ≠ '"' := by
  unfold Escape.escapeChar
  split
  · exact ⟨_, _, rfl, by decide⟩
  · next hplain =>
    split
    · exact ⟨_, _, rfl, by decide⟩
    · split
      · exact ⟨_, _, rfl, by decide⟩
      · exact ⟨c, [], rfl, fun h => hplain (.inl h)⟩

/-- **The characters of a string** are read back up to the closing quote. By induction on them:
each takes a step, and what is written for it is not shorter than that. -/
theorem scanText_flatMap (text rest : List Char) {fuel : Nat}
    (hfuel : (text.flatMap (Escape.escapeChar Escape.jsonString)).length < fuel) :
    scanText fuel (text.flatMap (Escape.escapeChar Escape.jsonString) ++ '"' :: rest) =
      some (some text, rest) := by
  induction text generalizing fuel with
  | nil =>
    obtain ⟨fuel, rfl⟩ : ∃ n, fuel = n + 1 := ⟨fuel - 1, by simp at hfuel; omega⟩
    rfl
  | cons c text ih =>
    -- what is written for a character is not empty and does not begin with a quote
    obtain ⟨first, others, hfirst, hquote⟩ := escapeChar_eq_cons c
    have hchar := scanChar_escapeChar c
      (text.flatMap (Escape.escapeChar Escape.jsonString) ++ '"' :: rest)
    simp only [List.flatMap_cons, hfirst, List.cons_append, List.append_assoc, List.length_cons,
      List.length_append] at hfuel hchar ⊢
    obtain ⟨fuel, rfl⟩ : ∃ n, fuel = n + 1 := ⟨fuel - 1, by omega⟩
    rw [scanText]
    · -- the character is read back, and the others are by the induction
      have hrest := @ih fuel (by omega)
      rw [hchar]
      simp [hrest]
    · -- the string does not end here
      intro _ h
      exact hquote (List.cons.inj h).1

/-- **A string is read back** from behind its opening quote, and what follows it is left. -/
theorem scanString_escape (text : String) (rest : List Char) :
    scanString ((Escape.escape Escape.jsonString text).toList ++ '"' :: rest) =
      some (some text, rest) := by
  rw [scanString, Escape.escape, String.toList_ofList, scanText_flatMap _ _ ?_]
  · simp
  · rw [List.length_append]
    omega

/-! ### Numerals -/

/-- What does not go on with a numeral. -/
def Ends (rest : List Char) : Prop :=
  ∀ c cs, rest = c :: cs → c.isDigit = false ∧ c ≠ '.' ∧ c ≠ 'e' ∧ c ≠ 'E'

theorem ends_nil : Ends [] := by
  intro c cs h
  cases h

theorem ends_cons {c : Char} {cs : List Char}
    (h : c.isDigit = false ∧ c ≠ '.' ∧ c ≠ 'e' ∧ c ≠ 'E') : Ends (c :: cs) := by
  intro d ds heq
  cases heq
  exact h

/-- The digits in front of what does not go on with them. -/
theorem scanDigits_append {digits rest : List Char} (hne : digits ≠ [])
    (hdigits : ∀ c ∈ digits, c.isDigit = true) (hrest : Ends rest) :
    scanDigits (digits ++ rest) = some (digits, rest) := by
  have hnone : rest.takeWhile Char.isDigit = [] ∧ rest.dropWhile Char.isDigit = rest := by
    cases rest with
    | nil => exact ⟨rfl, rfl⟩
    | cons c cs => simp [(hrest c cs rfl).1]
  rw [scanDigits, List.takeWhile_append_of_pos hdigits, List.dropWhile_append_of_pos hdigits,
    hnone.1, hnone.2]
  simp [hne]

/-- The digits of a number start with a zero only if it is zero. -/
theorem head?_toDigits {n : Nat} (h : 0 < n) : (Nat.toDigits 10 n).head? ≠ some '0' := by
  induction n using Nat.strong_induction_on with
  | _ n ih =>
    by_cases hlt : n < 10
    · rw [Nat.toDigits_of_lt_base hlt]
      simpa using h.ne'
    · -- the digits of a tenth come first
      rw [Nat.toDigits_of_base_le (by decide) (Nat.le_of_not_lt hlt), List.head?_append_of_ne_nil _
        Nat.toDigits_ne_nil]
      exact ih (n / 10) (by omega) (by omega)

/-- **The digits of a number** are read back as a whole part. -/
theorem scanWhole_toDigits (n : Nat) {rest : List Char} (hrest : Ends rest) :
    scanWhole (Nat.toDigits 10 n ++ rest) = some (n, rest) := by
  have hdigits : ∀ c ∈ Nat.toDigits 10 n, c.isDigit = true := fun c hc =>
    Nat.isDigit_of_mem_toDigits (by decide) (by decide) hc
  have hzero : ¬ ((Nat.toDigits 10 n).head? = some '0' ∧ (Nat.toDigits 10 n).length ≠ 1) := by
    rintro ⟨hhead, hlength⟩
    rcases Nat.eq_zero_or_pos n with rfl | hpos
    · simp [Nat.toDigits_zero] at hlength
    · exact head?_toDigits hpos hhead
  have hnumber : numberOf (Nat.toDigits 10 n) = n := Nat.ofDigitChars_ten_toDigits
  rw [scanWhole, scanDigits_append Nat.toDigits_ne_nil hdigits hrest]
  simp only [Option.bind_eq_bind, Option.bind_some]
  rw [if_neg hzero, hnumber]

/-- Behind the digits there is neither a fraction nor an exponent. -/
theorem scanNumeral_toDigits (negative : Bool) (n : Nat) (hsign : negative = true → n ≠ 0)
    {rest : List Char} (hrest : Ends rest) :
    scanNumeral negative (Nat.toDigits 10 n ++ rest) =
      some (int (if negative then -(n : Int) else n), rest) := by
  have hfraction : scanFraction rest = some (false, rest) := by
    unfold scanFraction
    split
    · exact absurd rfl (hrest _ _ rfl).2.1
    · rfl
  have hexponent : scanExponent rest = some (false, rest) := by
    unfold scanExponent
    split
    · next c cs =>
      obtain ⟨-, -, he, hE⟩ := hrest c cs rfl
      rw [if_neg (by simp [he, hE])]
    · rfl
  simpa [scanNumeral, scanWhole_toDigits n hrest, hfraction, hexponent] using hsign

/-- An integer is written as the digits of its absolute value, behind a sign if it is negative. -/
theorem toList_toString_int (i : Int) :
    (toString i).toList =
      if 0 ≤ i then Nat.toDigits 10 i.toNat else '-' :: Nat.toDigits 10 (-i).toNat := by
  rw [Int.toString_eq_repr, Int.repr_eq_if]
  split
  · exact Nat.toList_repr
  · simp [String.toList_append, Nat.toList_repr]

end Json

end LoopToStream
