/-!
# Numbers in decimal digits

## Main definitions

* `numberOf`: the number that digits stand for
* `number?`: the number that a text stands for, if it is made of digits

## Main results

* `numberOf_toString`, `number?_toString`: a number that is written down is read back
-/

namespace Acceptors.Text

/-- The number that digits stand for, the most significant one first. -/
def numberOf (digits : List Char) : Nat := Nat.ofDigitChars 10 digits 0

/-- The number that a text stands for: one or more digits and nothing else. -/
def number? (s : List Char) : Option Nat :=
  if s.isEmpty || !s.all Char.isDigit then none else some (numberOf s)

theorem toList_toString (n : Nat) : (toString n).toList = Nat.toDigits 10 n := Nat.toList_repr

theorem isDigit_of_mem_toString {n : Nat} {c : Char} (h : c ∈ (toString n).toList) :
    c.isDigit = true :=
  Nat.isDigit_of_mem_toDigits (by decide) (by decide) (toList_toString n ▸ h)

@[simp] theorem numberOf_toString (n : Nat) : numberOf (toString n).toList = n := by
  rw [toList_toString]
  exact Nat.ofDigitChars_ten_toDigits

theorem number?_eq_some_iff {s : List Char} {n : Nat} :
    number? s = some n ↔ s ≠ [] ∧ (∀ c ∈ s, c.isDigit = true) ∧ numberOf s = n := by
  simp [number?, and_assoc]

@[simp] theorem number?_toString (n : Nat) : number? (toString n).toList = some n := by
  refine number?_eq_some_iff.mpr ⟨?_, fun _ => isDigit_of_mem_toString, numberOf_toString n⟩
  rw [toList_toString]
  exact Nat.toDigits_ne_nil

end Acceptors.Text
