import Acceptors.Grammar.Basic

/-!
# Trees and derivations

## Main definitions

* `Tree`, `Tree.leaves`, `Tree.text`: an ordered tree over a word
* `Derivation`, `Derivation.forms`: productions that replace the leftmost nonterminal in turn
-/

namespace Acceptors

/-! ## Trees -/

/-- A tree with labelled nodes. A terminal node stands for a part of a word. -/
inductive Tree where
  | node (label : String) (terminal : Bool) (children : List Tree)
  deriving Repr

namespace Tree

/-- The node of a nonterminal. -/
def branch (name : String) (children : List Tree) : Tree := .node (displayLabel name) false children

/-- The node of a terminal. -/
def leaf (c : Char) : Tree := .node c.toString true []

mutual

/-- The labels of the terminal nodes from left to right; nothing below such a node counts. -/
def leaves : Tree → String
  | node label terminal children => if terminal then label else leavesOfAll children

/-- The labels of the terminal nodes of several trees. -/
def leavesOfAll : List Tree → String
  | [] => ""
  | t :: ts => leaves t ++ leavesOfAll ts

end

mutual

/-- The tree in brackets: each node has its label and its children between brackets. -/
def text : Tree → String
  | node label _ children => "[" ++ label ++ textOfAll children ++ "]"

/-- Several trees, each after a blank. -/
def textOfAll : List Tree → String
  | [] => ""
  | t :: ts => " " ++ text t ++ textOfAll ts

end

end Tree

/-! ## Derivations -/

/-- A start symbol and the productions that are applied in turn. -/
structure Derivation where
  start : String
  steps : List Production
  deriving DecidableEq, Repr

/-- Replaces the leftmost nonterminal by a body; nothing if there is none. -/
def replaceLeftmost (body : List GrammarSymbol) :
    List GrammarSymbol → Option (List GrammarSymbol)
  | [] => none
  | .terminal c :: rest => (replaceLeftmost body rest).map (.terminal c :: ·)
  | .nonterminal _ :: rest => some (body ++ rest)

namespace Derivation

/-- The forms that follow `form`; a step that finds no nonterminal is passed over. -/
def formsFrom (form : List GrammarSymbol) : List Production → List (List GrammarSymbol)
  | [] => [form]
  | p :: steps =>
    match replaceLeftmost p.body form with
    | some next => form :: formsFrom next steps
    | none => formsFrom form steps

/-- The sentential forms from the start symbol on. -/
def forms (d : Derivation) : List (List GrammarSymbol) :=
  formsFrom [.nonterminal d.start] d.steps

/-- The text of a sentential form. -/
def formText (form : List GrammarSymbol) : String :=
  if form.isEmpty then emptyWordSign else " ".intercalate (form.map GrammarSymbol.text)

/-- The sentential forms, joined by arrows. -/
def text (d : Derivation) : String := " => ".intercalate (d.forms.map formText)

end Derivation

end Acceptors
