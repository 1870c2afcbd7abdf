import Acceptors.Defect
import Acceptors.Grammar.Basic

/-!
# Chomsky Normal Form

The chart needs bodies that are empty, a single terminal or two nonterminals, and never uses an
empty body inside a word. So only the start symbol may have one, and then it occurs in no body.

## Main definitions

* `Production.isNormal`: the shape of a body
* `Grammar.check`: the first defect of a grammar
-/

namespace Acceptors

/-- Whether the body is empty, a single terminal or two nonterminals. -/
def Production.isNormal (p : Production) : Bool :=
  match p.body with
  | [] => true
  | [.terminal _] => true
  | [.nonterminal _, .nonterminal _] => true
  | _ => false

namespace Grammar

section

variable (g : Grammar)

/-- The first production whose body has the wrong shape. -/
def misshapen? : Option Production := g.productions.find? fun p => !p.isNormal

/-- The first production with the start symbol in its body. -/
def recursive? : Option Production :=
  g.productions.find? fun p => p.body.contains (.nonterminal g.start)

/-- What is wrong with the empty bodies: the first one that does not belong to the start symbol,
unless the start symbol has an empty body before and occurs in a body. -/
def emptyBodyProblem? : Option String :=
  (g.productions.filter fun p => p.body.isEmpty).findSome? fun p =>
    if p.head ≠ g.start then
      some (p.text ++ " (only the start symbol may derive " ++ emptyWordSign ++ ")")
    else g.recursive?.map fun r =>
      r.text ++ " (the start symbol derives " ++ emptyWordSign ++ " and occurs in a body)"

/-- The first defect of a grammar: no start symbol, then a body of the wrong shape, then an empty
body that the chart could not use. -/
def check : Except Defect Unit :=
  if g.start.isEmpty then .error (.structural "Grammar has no start symbol")
  else
    match g.misshapen? with
    | some p => .error (.notNormalForm p.text)
    | none =>
      match g.emptyBodyProblem? with
      | some problem => .error (.notNormalForm problem)
      | none => .ok ()

end

end Grammar

end Acceptors
