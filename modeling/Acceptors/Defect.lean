import Acceptors.Text.Quoted

/-!
# Defects

A defect is what the checks before a run can find wrong with a grammar, a machine, an automaton or
a program.

## Main definitions

* `Defect`: the causes
* `Defect.message`: their wording
-/

namespace Acceptors

/-- What is wrong with a grammar, a machine, an automaton or a program. -/
inductive Defect where
  /-- A production that keeps the grammar out of normal form. -/
  | notNormalForm (production : String)
  /-- An edge that leaves `state` on a symbol outside the alphabet. -/
  | symbolOutsideAlphabet (state : String) (symbol : Char)
  /-- Edges that leave `state` on one symbol towards different targets. -/
  | nondeterministic (state : String) (symbol : Char)
  /-- No edge leaves `state` on `symbol`. -/
  | missingTransition (state : String) (symbol : Char)
  /-- Labels that several statements bear. -/
  | duplicateLabels (labels : List String)
  /-- Jump targets that no statement bears as its label. -/
  | undefinedLabels (labels : List String)
  /-- A problem of structure, stated in full. -/
  | structural (problem : String)
  deriving DecidableEq, Repr

namespace Defect

/-- The wording of a defect. -/
def message : Defect → String
  | notNormalForm production => "Grammar is not in Chomsky Normal Form: " ++ production
  | symbolOutsideAlphabet state symbol =>
    "Transition from state '" ++ state ++ "' uses symbol '" ++ symbol.toString ++
      "' outside the alphabet"
  | nondeterministic state symbol =>
    "FA is not DFA: state '" ++ state ++ "' has several transitions on '" ++ symbol.toString ++ "'"
  | missingTransition state symbol =>
    "Missing transition for state '" ++ state ++ "' and symbol '" ++ symbol.toString ++ "'"
  | duplicateLabels labels => "Labels defined more than once: " ++ Text.quotedList labels
  | undefinedLabels labels => "Jumps reference undefined labels: " ++ Text.quotedList labels
  | structural problem => problem

end Defect

end Acceptors
