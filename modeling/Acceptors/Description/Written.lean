import Acceptors.Description.ProgramText
import Acceptors.Description.DfaText
import Acceptors.Description.GrammarText

/-!
# Written descriptions

A description is written one section or rule a line. Symbols are quoted, so that any character but
the quote can be written. Edges and transitions stand below the name of the state that they leave.

## Main definitions

* `Written.quoted`, `Written.bracketed`: symbols and lists
* `Written.joined`: the text of lines
* `Written.ofGrammar`, `Written.ofMachine`, `Written.ofDfa`, `Written.ofProgram`: the lines of
  descriptions

## Main results

* `read_symbol_quoted`: a quoted symbol is read back, whatever follows
-/

namespace Acceptors.Description.Written

/-- A line of a description. -/
abbrev Line := List Char

/-! ## Parts of lines -/

/-- A symbol between quotes. -/
def quoted (c : Char) : Line := ['\'', c, '\'']

/-- Items with commas in between. -/
def listed (items : List Line) : Line := [',', ' '].intercalate items

/-- Items with commas in between and in brackets. -/
def bracketed (items : List Line) : Line := '[' :: listed items ++ [']']

/-- A keyword with a colon. -/
def heading (keyword : String) : Line := keyword.toList ++ [':']

/-- A section of a single value. -/
def field (keyword : String) (value : Line) : Line := heading keyword ++ ' ' :: value

/-- The text of lines. -/
def joined (lines : List Line) : List Char := ['\n'].intercalate lines

/-- A quoted symbol is read back, whatever follows. -/
theorem read_symbol_quoted {c : Char} (h : c ≠ '\'') (rest : List Char) :
    Token.symbol (quoted c ++ rest) = some (c, rest) := by
  simp [quoted, Token.symbol, h]

/-! ## Grammars -/

/-- A symbol of a body: a terminal is quoted, a nonterminal is not. -/
def ofSymbol : GrammarSymbol → Line
  | .terminal c => quoted c
  | .nonterminal name => name.toList

/-- A body; an empty one gets the sign of the empty word. -/
def ofBody (body : List GrammarSymbol) : Line :=
  if body.isEmpty then emptyWordSign.toList else [' '].intercalate (body.map ofSymbol)

/-- A head with bodies. -/
def ofRule (head : String) (bodies : List (List GrammarSymbol)) : Line :=
  head.toList ++ " -> ".toList ++ " | ".toList.intercalate (bodies.map ofBody)

/-- A grammar with a line for each head and some of its bodies. -/
def ofRules (name : Line) (start : String) (rules : List (String × List (List GrammarSymbol))) :
    List Line :=
  [field "name" name, field "start" start.toList, heading "rules"] ++
    rules.map fun (head, bodies) => ofRule head bodies

/-- A grammar with a line for each production. -/
def ofGrammar (name : Line) (g : Grammar) : List Line :=
  ofRules name g.start (g.productions.map fun p => (p.head, [p.body]))

/-! ## Machines -/

/-- A transition in brackets. -/
def ofTransition (t : Transition) : Line :=
  bracketed (t.read.map quoted) ++ " -> ".toList ++ bracketed (t.write.map quoted) ++
    ", ".toList ++ bracketed (t.directions.map fun d => d.text.toList) ++ ", ".toList ++
    t.next.toList

/-- The lines of blocks: the name of each state and what stands below it. -/
def ofBlocks {α : Type} (line : α → Line) (blocks : List (Block α)) : List Line :=
  blocks.flatMap fun (state, items) => heading state :: items.map line

/-- A machine with blocks of transitions. -/
def ofMachine (name : Line) (initial final : String) (blank : Char) (tapes : Nat)
    (blocks : List (Block Transition)) : List Line :=
  [field "name" name, field "blank" (quoted blank), field "tapes" (toString tapes).toList,
    field "initial" initial.toList, field "accepting" final.toList, heading "rules"] ++
    ofBlocks ofTransition blocks

/-! ## Deterministic automata -/

/-- Symbols and their common target. -/
def ofEdge (e : EdgeLine) : Line :=
  listed (e.1.map quoted) ++ " -> ".toList ++ e.2.toList

/-- An automaton with blocks of edges. -/
def ofDfa (name : Line) (initial : String) (accepting : List String) (alphabet : List Char)
    (blocks : List (Block EdgeLine)) : List Line :=
  [field "name" name, field "initial" initial.toList,
    field "accepting" (bracketed (accepting.map String.toList)),
    field "alphabet" (bracketed (alphabet.map quoted)), heading "rules"] ++
    ofBlocks ofEdge blocks

/-! ## Programs -/

/-- A program: its variables and its start label, then its statements. -/
def ofProgram (name : Line) (p : Goto.Program) : List Line :=
  [field "name" name] ++ p.headings.map String.toList ++ [heading "program"] ++
    p.statements.map fun s => s.text.toList

end Acceptors.Description.Written
