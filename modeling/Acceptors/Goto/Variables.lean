/-!
# Bindings of variables

## Main definitions

* `Goto.Variables`: the variables that are set, in increasing order of their names
* `Variables.get`, `Variables.set`

## Main results

* `get_set_self`, `get_set_of_ne`: what a variable holds after an assignment
-/

namespace Acceptors.Goto

/-- The variables that are set, in increasing order of their names, with their values. -/
abbrev Variables := List (String × Int)

namespace Variables

/-- The value of a variable; one that was never set holds zero. -/
def get : Variables → String → Int
  | [], _ => 0
  | (y, n) :: l, x => if x = y then n else get l x

/-- Sets a variable at its place. -/
def set : Variables → String → Int → Variables
  | [], x, n => [(x, n)]
  | (y, m) :: l, x, n =>
    if x < y then (x, n) :: (y, m) :: l
    else if x = y then (x, n) :: l
    else (y, m) :: set l x n

@[simp] theorem get_set_self (l : Variables) (x : String) (n : Int) : (l.set x n).get x = n := by
  induction l with
  | nil => simp [set, get]
  | cons e l ih =>
    obtain ⟨y, m⟩ := e
    unfold set
    split
    · simp [get]
    · split
      · simp [get]
      · next h => simp [get, h, ih]

theorem get_set_of_ne (l : Variables) {x z : String} (n : Int) (h : z ≠ x) :
    (l.set x n).get z = l.get z := by
  induction l with
  | nil => simp [set, get, h]
  | cons e l ih =>
    obtain ⟨y, m⟩ := e
    unfold set
    split
    · simp [get, h]
    · split
      · next hxy => subst hxy; simp [get, h]
      · simp [get, ih]

end Variables

end Acceptors.Goto
