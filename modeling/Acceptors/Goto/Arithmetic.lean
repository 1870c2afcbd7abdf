import Acceptors.Goto.Basic

/-!
# Checked arithmetic

Values are integers that fit into 64 bits with sign. An operator fails if it divides by zero or if
its result does not fit. Division rounds towards zero first, and where that moved the quotient up it
is moved back down, so that quotients are rounded towards negative infinity. A remainder fails where
its quotient does.

## Main definitions

* `Goto.Fits`, `Goto.asValue?`: the integers that are values
* `Goto.ArithmeticError`: the ways in which an operator fails
* `Goto.Operator.result?`: the result of an operator that does not divide by zero
* `Goto.Operator.apply`: the result of an operator, or how it fails
* `Goto.Relation.holds`: the result of a comparison

## Main results

* `Operator.apply_of_zero`, `Operator.apply_of_not_zero`: the two ways of an operator
-/

namespace Acceptors.Goto

/-- The smallest value. -/
def leastValue : Int := -9223372036854775808

/-- The largest value. -/
def greatestValue : Int := 9223372036854775807

/-- The integers that fit into 64 bits with sign. -/
abbrev Fits (n : Int) : Prop := leastValue ≤ n ∧ n ≤ greatestValue

/-- An integer as a value; nothing if it does not fit. -/
def asValue? (n : Int) : Option Int := if Fits n then some n else none

/-- Whether exactly one of two integers is negative. -/
def signsDiffer (m n : Int) : Bool := decide (m < 0) != decide (n < 0)

theorem asValue?_of_fits {n : Int} (h : Fits n) : asValue? n = some n := if_pos h

theorem asValue?_of_not_fits {n : Int} (h : ¬ Fits n) : asValue? n = none := if_neg h

theorem signsDiffer_iff {m n : Int} :
    signsDiffer m n ↔ (m < 0 ∧ 0 ≤ n) ∨ (0 ≤ m ∧ n < 0) := by
  by_cases hm : m < 0 <;> by_cases hn : n < 0 <;> simp [signsDiffer, hm, hn] <;> omega

/-- How an operator fails on its two operands. -/
inductive ArithmeticError where
  | divisionByZero (left : Int) (operator : Operator) (right : Int)
  | overflow (left : Int) (operator : Operator) (right : Int)
  deriving DecidableEq, Repr

namespace Operator

/-- Whether the operator divides. -/
def divides : Operator → Bool
  | div | mod => true
  | _ => false

/-- The result of an operator that does not divide by zero; nothing if it does not fit, or if the
quotient of a remainder does not. -/
def result? : Operator → Int → Int → Option Int
  | add, l, r => asValue? (l + r)
  | sub, l, r => asValue? (l - r)
  | mul, l, r => asValue? (l * r)
  | div, l, r =>
    (asValue? (l.tdiv r)).map fun q => if l.tmod r ≠ 0 ∧ signsDiffer l r then q - 1 else q
  | mod, l, r =>
    (asValue? (l.tdiv r)).map fun _ =>
      if l.tmod r ≠ 0 ∧ signsDiffer (l.tmod r) r then l.tmod r + r else l.tmod r

/-- The result of an operator, or how it fails. -/
def apply (op : Operator) (l r : Int) : Except ArithmeticError Int :=
  if op.divides ∧ r = 0 then .error (.divisionByZero l op r)
  else
    match op.result? l r with
    | some v => .ok v
    | none => .error (.overflow l op r)

section

variable {op : Operator} {l r : Int}

theorem divides_iff : op.divides ↔ op = div ∨ op = mod := by
  cases op <;> simp [divides]

theorem apply_of_zero (h : (op = div ∨ op = mod) ∧ r = 0) :
    op.apply l r = .error (.divisionByZero l op r) := by
  rw [apply, if_pos (by rwa [divides_iff])]

theorem apply_of_not_zero (h : ¬ ((op = div ∨ op = mod) ∧ r = 0)) :
    op.apply l r = (op.result? l r).elim (.error (.overflow l op r)) .ok := by
  rw [apply, if_neg (by rwa [divides_iff])]
  cases op.result? l r <;> rfl

end

end Operator

/-- Whether a comparison holds. -/
def Relation.holds : Relation → Int → Int → Bool
  | eq, l, r => l = r
  | ne, l, r => l ≠ r
  | lt, l, r => l < r
  | gt, l, r => r < l
  | le, l, r => l ≤ r
  | ge, l, r => r ≤ l

end Acceptors.Goto
