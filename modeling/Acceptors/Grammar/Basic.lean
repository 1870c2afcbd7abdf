import Acceptors.Distinct
import Acceptors.Word

/-!
# Context-free grammars

A grammar is a start symbol with an ordered list of productions. Terminals are characters,
nonterminals have names.

## Main definitions

* `Grammar`, `Production`, `GrammarSymbol`
* `Grammar.nonterminals`, `Grammar.terminals`: the symbols in order of first appearance
* `displayLabel`: a name as it is shown
-/

namespace Acceptors

/-- A name as it is shown: the marker of generated names becomes a dash. -/
def displayLabel (name : String) : String :=
  String.ofList (name.toList.map fun c => if c = '#' then '-' else c)

/-- A symbol in the body of a production. -/
inductive GrammarSymbol where
  | terminal (c : Char)
  | nonterminal (name : String)
  deriving DecidableEq, Repr

namespace GrammarSymbol

/-- The name of a nonterminal. -/
def name? : GrammarSymbol → Option String
  | terminal _ => none
  | nonterminal name => some name

/-- The character of a terminal. -/
def char? : GrammarSymbol → Option Char
  | terminal c => some c
  | nonterminal _ => none

/-- The text of a symbol. -/
def text : GrammarSymbol → String
  | terminal c => c.toString
  | nonterminal name => displayLabel name

end GrammarSymbol

/-- A production: its head may be replaced by its body. -/
structure Production where
  head : String
  body : List GrammarSymbol
  deriving DecidableEq, Repr

namespace Production

/-- The text of a production; an empty body gets the sign of the empty word. -/
def text (p : Production) : String :=
  displayLabel p.head ++ " ->" ++
    if p.body.isEmpty then " " ++ emptyWordSign
    else String.join (p.body.map fun s => " " ++ s.text)

end Production

/-- A context-free grammar. -/
structure Grammar where
  start : String
  productions : List Production
  deriving DecidableEq, Repr

namespace Grammar

section

variable (g : Grammar)

/-- The nonterminals in order of first appearance, the start symbol first and each head before
its body. -/
def nonterminals : List String :=
  distinct (g.start :: g.productions.flatMap fun p =>
    p.head :: p.body.filterMap GrammarSymbol.name?)

/-- The terminals in order of first appearance. -/
def terminals : List Char :=
  distinct (g.productions.flatMap fun p => p.body.filterMap GrammarSymbol.char?)

/-- The productions of a nonterminal. -/
def productionsOf (head : String) : List Production :=
  g.productions.filter fun p => p.head = head

/-- The productions, one a line. -/
def text : String := String.join (g.productions.map fun p => p.text ++ "\n")

@[simp] theorem start_mem_nonterminals : g.start ∈ g.nonterminals := by simp [nonterminals]

theorem nodup_nonterminals : g.nonterminals.Nodup := nodup_distinct _

end

end Grammar

end Acceptors
