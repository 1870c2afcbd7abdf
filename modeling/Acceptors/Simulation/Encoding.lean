import Acceptors.Simulation.Basic
import Acceptors.Text.Json

/-!
# Verdicts as JSON

## Main definitions

* `Verdict.encode`, `Report.encode`: verdicts and reports as JSON values
-/

namespace Acceptors

open Text (Json)

/-- The character as a text of its own. -/
def encodeChar (c : Char) : Json := .text c.toString

/-- The symbol under the name of its kind. -/
def GrammarSymbol.encode : GrammarSymbol → Json
  | terminal c => .singleton "Terminal" (encodeChar c)
  | nonterminal name => .singleton "Nonterminal" (.text name)

/-- The head and the body. -/
def Production.encode (p : Production) : Json :=
  .object [("head", .text p.head), ("body", .array (p.body.map GrammarSymbol.encode))]

mutual

/-- The label, the kind and the children of a node. -/
def Tree.encode : Tree → Json
  | node label terminal children =>
    .object [("label", .text label), ("terminal", .bool terminal),
      ("children", .array (encodeAll children))]

/-- Several trees. -/
def Tree.encodeAll : List Tree → List Json
  | [] => []
  | t :: ts => encode t :: encodeAll ts

end

/-- The start symbol and the steps. -/
def Derivation.encode (d : Derivation) : Json :=
  .object [("start", .text d.start), ("steps", .array (d.steps.map Production.encode))]

/-- The symbols, the place of the head and the blank. -/
def Tape.encode (t : Tape) : Json :=
  .object [("symbols", .array (t.symbols.map encodeChar)), ("head", .number t.head),
    ("blank", encodeChar t.blank)]

/-- The state, the tapes and the number of steps. -/
def Configuration.encode (c : Configuration) : Json :=
  .object [("state", .text c.state), ("tapes", .array (c.tapes.map Tape.encode)),
    ("steps", .number c.steps)]

/-- The variables with their values. -/
def Goto.Variables.encode (vars : Goto.Variables) : Json :=
  .object (vars.map fun (name, n) => (name, .number n))

/-- The evidence under the name of its kind. -/
def Evidence.encode : Evidence → Json
  | explanation e => .singleton "Parse"
    (.object [("tree", e.tree.encode), ("derivation", e.derivation.encode)])
  | halted c => .singleton "Run" c.encode
  | exhausted explored => .singleton "Exhausted" (.singleton "explored" (.number explored))
  | path states => .singleton "Path" (.array (states.map .text))
  | value output vars => .singleton "Value"
    (.object [("output", .number output), ("variables", vars.encode)])
  | failure f => .singleton "Failure" (.text f.message)
  | nothing => .text "None"

/-- The word, whether it is accepted, and the evidence. -/
def Verdict.encode (v : Verdict) : Json :=
  .object [("word", .text (.ofList v.word)), ("accepted", .bool v.accepted),
    ("artifact", v.evidence.encode)]

/-- The verdicts and the numbers of accepted and rejected words. -/
def Report.encode (r : Report) : Json :=
  .object [("verdicts", .array (r.verdicts.map Verdict.encode)),
    ("accepted", .number r.accepted), ("rejected", .number r.rejected)]

end Acceptors
