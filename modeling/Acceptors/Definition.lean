import Acceptors.Dfa.Basic
import Acceptors.Goto.Basic
import Acceptors.Grammar.Basic
import Acceptors.Kind
import Acceptors.Machine.Basic

/-!
# Definitions

## Main definitions

* `Automaton`: what decides words
* `Definition`: an automaton with a name and words to check
-/

namespace Acceptors

/-- What decides words: a grammar, a machine, a deterministic automaton or a program. -/
inductive Automaton where
  | grammar (g : Grammar)
  | machine (m : Machine)
  | dfa (d : Dfa)
  | goto (p : Goto.Program)
  deriving DecidableEq, Repr

/-- The kind of an automaton. -/
def Automaton.kind : Automaton → Kind
  | grammar _ => .grammar
  | machine _ => .machine
  | dfa _ => .dfa
  | goto _ => .goto

/-- An automaton with a name and words to check. -/
structure Definition where
  name : String
  checks : List Word
  automaton : Automaton
  deriving DecidableEq, Repr

/-- The kind of what is defined. -/
def Definition.kind (d : Definition) : Kind := d.automaton.kind

end Acceptors
