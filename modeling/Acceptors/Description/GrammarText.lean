import Acceptors.Description.Section
import Acceptors.Grammar.NormalForm

/-!
# Descriptions of grammars

A rule line holds the alternatives of one head, separated by bars. A quoted symbol is a terminal.
Another symbol is a nonterminal if it is the head of some rule, and else a terminal if it is a
single character.

## Main definitions

* `grammarSections`: reads the sections of a grammar
* `classify`: the symbol that a text in a body stands for
* `grammarOf`: the grammar that sections describe
-/

namespace Acceptors.Description

/-! ## Reading -/

/-- The symbols of an alternative, as they are written. -/
abbrev Alternative := List (Located (List Char))

/-- Reads the sign of the empty body. -/
def emptyBody : Reader Alternative :=
  (fun _ => []) <$> Reader.phrase .epsilon (.lit "ε" <|> .lit "''")

/-- Reads an alternative: the sign of the empty body, or symbols. -/
def alternative : Reader Alternative :=
  .phrase .alternative (emptyBody <|> .many1 (.located (.token .bodySymbol Token.bodySymbol)))

/-- Reads a rule line: a head and its alternatives. -/
def ruleLine : Reader (String × List Alternative) := .phrase .production do
  let head ← Reader.token .ident Token.ident
  .skip
  .lit "->"
  .skip
  let first ← alternative
  .skip
  let rest ← Reader.many do
    Reader.lit "|"
    .skip
    alternative
  return (head, first :: rest)

/-! ## Productions -/

/-- The symbol that a text in a body stands for. -/
def classify (heads : List String) (x : Located (List Char)) : Checked GrammarSymbol :=
  match x.value with
  | ['\'', c, '\''] => .ok (.terminal c)
  | text =>
    if heads.contains (.ofList text) then .ok (.nonterminal (.ofList text))
    else match text with
      | [c] => .ok (.terminal c)
      | _ => x.complain (.unknownNonterminal (.ofList text))

/-- The productions of rule lines. -/
def productionsOf (lines : List (String × List Alternative)) : Checked (List Production) :=
  let heads := lines.map Prod.fst
  gather <| lines.flatMap fun (head, alternatives) =>
    alternatives.map fun alternative =>
      (gather (alternative.map (classify heads))).map fun body => ⟨head, body⟩

/-- Reads a section of rule lines. -/
def productionsSection : Reader Section :=
  (fun lines => Section.productions (productionsOf lines)) <$>
    sectionOf .cfgRules "rules" (itemLines ruleLine)

/-- Reads the sections of a grammar. -/
def grammarSections : Reader (List (Located Section)) :=
  sections .cfgFile (nameSection <|> startSection <|> productionsSection <|> checksSection)

/-! ## Assembling -/

/-- The start symbol that is given, or else the head of the first production. -/
def startSymbol (l : List (Located Section)) (productions : List Production) :
    Except Refusal String :=
  match found? l Section.start?, productions with
  | some name, _ => .ok name
  | none, p :: _ => .ok p.head
  | none, [] => .error (.missing "start")

/-- The name and the grammar that sections describe. -/
def grammarOf (l : List (Located Section)) : Except Refusal (String × Grammar) := do
  let name ← givenName l
  let rules ← required l "rules" Section.productions?
  let productions ← rules.accept
  let start ← startSymbol l productions
  let g : Grammar := ⟨start, productions⟩
  g.check.mapError .defect
  return (name, g)

end Acceptors.Description
