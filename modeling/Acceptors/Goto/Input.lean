import Acceptors.Goto.Arithmetic
import Acceptors.Text.Blank
import Acceptors.Text.Digits
import Acceptors.Word

/-!
# Words as inputs of programs

A word is an input if it is a value in decimal digits, with or without a sign. White space around
it does not count.

## Main definitions

* `Goto.signAndDigits`: a text without its sign
* `Goto.input?`: the value that a word stands for

## Main results

* `input?_eq_some_iff`: which words are inputs
-/

namespace Acceptors.Goto

/-- The factor that a sign in front of a text stands for, and the text without it. -/
def signAndDigits : List Char → Int × List Char
  | '-' :: digits => (-1, digits)
  | '+' :: digits => (1, digits)
  | digits => (1, digits)

/-- The value that a word stands for; nothing if it is no number or does not fit. -/
def input? (w : Word) : Option Int :=
  let (sign, digits) := signAndDigits (Text.trim w)
  ((Text.number? digits).map fun (n : Nat) => sign * (n : Int)).filter fun n => Fits n

theorem input?_eq_some_iff {w : Word} {v : Int} :
    input? w = some v ↔
      ∃ n, Text.number? (signAndDigits (Text.trim w)).2 = some n ∧
        (signAndDigits (Text.trim w)).1 * n = v ∧ Fits v := by
  simp only [input?, Option.filter_eq_some_iff, Option.map_eq_some_iff, decide_eq_true_eq]
  constructor
  · rintro ⟨⟨n, hn, rfl⟩, hv⟩
    exact ⟨n, hn, rfl, hv⟩
  · rintro ⟨n, hn, rfl, hv⟩
    exact ⟨⟨n, hn, rfl⟩, hv⟩

end Acceptors.Goto
