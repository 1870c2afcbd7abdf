import Acceptors.Dfa.Table

/-!
# Merging states that nothing tells apart

The quotient of an automaton by a table has the classes of the table as its states. Each class
takes its targets and its acceptance from its first member.

## Main definitions

* `Dfa.className`: the name of a class
* `Dfa.quotient?`: the automaton on the classes of a table
-/

namespace Acceptors

namespace Dfa

section

variable (d : Dfa)

/-- A class of one state keeps its name; a larger one lists its members in braces. -/
def className : List String → String
  | [name] => name
  | names => "\x7b" ++ ",".intercalate names ++ "\x7d"

/-- The number of the first class that holds the state. -/
def classOf (classes : List (List Nat)) (s : Nat) : Nat :=
  classes.findIdx fun members => members.contains s

/-- The state that stands for a class: the targets are classes. -/
def mergedState (classes : List (List Nat)) (members : List Nat) : State where
  name := className (members.map d.nameOf)
  accepting := (members.head?).any d.acceptsAt
  targets := (((members.head?).bind (d.states[·]?)).elim [] State.targets).map (classOf classes)

/-- The automaton on the classes of a table; nothing if the table lists other states. -/
def quotient? (t : Table) : Option Dfa :=
  if t.names = d.names then
    some {
      alphabet := d.alphabet
      states := t.classIndices.map (d.mergedState t.classIndices)
      initial := classOf t.classIndices d.initial }
  else none

theorem quotient?_eq_none_iff {t : Table} : d.quotient? t = none ↔ t.names ≠ d.names := by
  simp [quotient?]

end

end Dfa

end Acceptors
