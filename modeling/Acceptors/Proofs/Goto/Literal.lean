import Acceptors.Goto.Input

/-!
# Literals

A word is the input of a program if a literal that fits is left of it without the white space around
it. A literal is a run of digits, with or without a sign in front of it. A sign alone is none, and so
is a run of digits behind two signs.

## Main definitions

* `Goto.Literal`: the literals and the integers that they stand for
* `Goto.IsInput`: the words that are inputs

## Main results

* `literal_iff_signAndDigits`: a literal is read as its sign and its digits
* `input?_eq_some_iff_literal`, `input?_eq_none_iff`: the inputs are the literals that fit
-/

namespace Acceptors.Goto

/-- The text is a literal of the integer. -/
inductive Literal : List Char → Int → Prop where
  | unsigned {digits : List Char} (ne_nil : digits ≠ []) (digit : ∀ c ∈ digits, c.isDigit = true) :
    Literal digits (Text.numberOf digits)
  | plus {digits : List Char} (ne_nil : digits ≠ []) (digit : ∀ c ∈ digits, c.isDigit = true) :
    Literal ('+' :: digits) (Text.numberOf digits)
  | minus {digits : List Char} (ne_nil : digits ≠ []) (digit : ∀ c ∈ digits, c.isDigit = true) :
    Literal ('-' :: digits) (-Text.numberOf digits)

/-- A literal of a value is left of the word without the white space around it. -/
def IsInput (w : Word) : Prop := ∃ v, Literal (Text.trim w) v ∧ Fits v

/-- Digits have no sign in front of them. -/
theorem signAndDigits_of_isDigit {digits : List Char} (h : ∀ c ∈ digits, c.isDigit = true) :
    signAndDigits digits = (1, digits) := by
  unfold signAndDigits
  split
  · exact absurd (h '-' List.mem_cons_self) (by decide)
  · exact absurd (h '+' List.mem_cons_self) (by decide)
  · rfl

theorem literal_iff_signAndDigits {s : List Char} {v : Int} :
    Literal s v ↔
      ∃ n, Text.number? (signAndDigits s).2 = some n ∧ (signAndDigits s).1 * n = v := by
  constructor
  · intro h
    cases h with
    | unsigned ne_nil digit =>
      rw [signAndDigits_of_isDigit digit]
      exact ⟨_, Text.number?_eq_some_iff.mpr ⟨ne_nil, digit, rfl⟩, by simp⟩
    | plus ne_nil digit =>
      exact ⟨_, Text.number?_eq_some_iff.mpr ⟨ne_nil, digit, rfl⟩, by simp [signAndDigits]⟩
    | minus ne_nil digit =>
      exact ⟨_, Text.number?_eq_some_iff.mpr ⟨ne_nil, digit, rfl⟩, by simp [signAndDigits]⟩
  · rintro ⟨n, hn, rfl⟩
    obtain ⟨ne_nil, digit, rfl⟩ := Text.number?_eq_some_iff.mp hn
    -- the sign in front tells which literal it is
    fun_cases signAndDigits s with
    | case1 digits => simpa [signAndDigits] using Literal.minus ne_nil digit
    | case2 digits => simpa [signAndDigits] using Literal.plus ne_nil digit
    | case3 => simpa [signAndDigits] using Literal.unsigned ne_nil digit

/-- The inputs are the literals that fit, with white space around them or not. -/
theorem input?_eq_some_iff_literal {w : Word} {v : Int} :
    input? w = some v ↔ Literal (Text.trim w) v ∧ Fits v := by
  rw [input?_eq_some_iff, literal_iff_signAndDigits]
  constructor
  · rintro ⟨n, hn, hv, hfits⟩
    exact ⟨⟨n, hn, hv⟩, hfits⟩
  · rintro ⟨⟨n, hn, hv⟩, hfits⟩
    exact ⟨n, hn, hv, hfits⟩

theorem input?_eq_none_iff {w : Word} : input? w = none ↔ ¬ IsInput w := by
  rw [Option.eq_none_iff_forall_ne_some, IsInput, not_exists]
  exact forall_congr' fun v => not_congr input?_eq_some_iff_literal

end Acceptors.Goto
