import Acceptors.Text.Place

/-!
# Phrases of the description language

A description is made of phrases. When a text cannot be read, the message names the phrases that
could have stood at the furthest place where a phrase was looked for.

## Main definitions

* `Phrase`: the kinds of phrase, in a fixed order
* `Expectations`: the furthest place and the phrases that were missed there
* `Expectations.miss`: how a missed phrase changes them
* `Expectations.message`: the wording
-/

namespace Acceptors.Description

/-- The kinds of phrase, in the order in which messages name them. -/
inductive Phrase where
  | endOfInput
  | ident | text | count | stateId | symbol | symbols | stateList | word | words
  | name | checks | initial | accepting | start
  | bodySymbol | epsilon | alternative | production | cfgRules | cfgFile
  | blank | tapes | direction | directions | tuple | tmAction | tmBlock | tmRules | tmFile
  | alphabet | dfaEdge | dfaBlock | dfaRules | dfaFile
  | label | variableName | literal | relation | operator
  | compute | assign | halt | jump | ifJump | statement
  | inputVar | outputVar | program | gotoFile
  deriving DecidableEq, Repr

namespace Phrase

/-- All kinds of phrase in order. -/
def all : List Phrase :=
  [endOfInput, ident, text, count, stateId, symbol, symbols, stateList, word, words, name, checks,
   initial, accepting, start, bodySymbol, epsilon, alternative, production, cfgRules, cfgFile,
   blank, tapes, direction, directions, tuple, tmAction, tmBlock, tmRules, tmFile, alphabet,
   dfaEdge, dfaBlock, dfaRules, dfaFile, label, variableName, literal, relation, operator,
   compute, assign, halt, jump, ifJump, statement, inputVar, outputVar, program, gotoFile]

/-- The name of a phrase in messages. -/
def title : Phrase → String
  | endOfInput => "EOI"
  | ident => "ident"
  | text => "text"
  | count => "count"
  | stateId => "state_id"
  | symbol => "symbol"
  | symbols => "symbols"
  | stateList => "state_list"
  | word => "word"
  | words => "words"
  | name => "name"
  | checks => "checks"
  | initial => "initial"
  | accepting => "accepting"
  | start => "start"
  | bodySymbol => "body_symbol"
  | epsilon => "epsilon"
  | alternative => "alternative"
  | production => "production"
  | cfgRules => "cfg_rules"
  | cfgFile => "cfg_file"
  | blank => "blank"
  | tapes => "tapes"
  | direction => "direction"
  | directions => "directions"
  | tuple => "tuple"
  | tmAction => "tm_action"
  | tmBlock => "tm_block"
  | tmRules => "tm_rules"
  | tmFile => "tm_file"
  | alphabet => "alphabet"
  | dfaEdge => "dfa_edge"
  | dfaBlock => "dfa_block"
  | dfaRules => "dfa_rules"
  | dfaFile => "dfa_file"
  | label => "label"
  | variableName => "variable"
  | literal => "literal"
  | relation => "relation"
  | operator => "operator"
  | compute => "compute"
  | assign => "assign"
  | halt => "halt"
  | jump => "jump"
  | ifJump => "if_jump"
  | statement => "statement"
  | inputVar => "input_var"
  | outputVar => "output_var"
  | program => "program"
  | gotoFile => "goto_file"

theorem mem_all (p : Phrase) : p ∈ all := by cases p <;> decide

end Phrase

/-- The furthest place where a phrase was missed, counted in characters that are left to read, and
the phrases that were missed there. -/
structure Expectations where
  left : Nat
  phrases : List Phrase
  deriving DecidableEq, Repr

namespace Expectations

section

variable (e : Expectations)

/-- The number of phrases that were missed at a place. -/
def countAt (left : Nat) : Nat := if e.left = left then e.phrases.length else 0

/-- Notes that a phrase was missed with `left` characters left, where `before` is what was
expected before it was looked for. If looking for it added a single phrase at its own place, that
phrase says more and stays. Otherwise the phrase stands for all that it added there. -/
def miss (before : Expectations) (p : Phrase) (left : Nat) : Expectations :=
  let known := before.countAt left
  -- the one phrase that was added here says more
  if e.countAt left = known + 1 then e
  -- something was missed further on
  else if e.left < left then e
  -- all that was added here gives way
  else if e.left = left then ⟨left, e.phrases.take known ++ [p]⟩
  -- nothing was missed as far as here before
  else ⟨left, [p]⟩

/-- The names of the expected phrases, each once and in order. -/
def titles : List String :=
  (Phrase.all.filter fun p => e.phrases.contains p).map Phrase.title

/-- The wording: what was expected. -/
def message : String :=
  "expected " ++
    match e.titles with
    | [] => ""
    | [a] => a
    | [a, b] => a ++ " or " ++ b
    | titles => ", ".intercalate titles.dropLast ++ ", or " ++ (titles.getLast?).getD ""

end

end Expectations

end Acceptors.Description
