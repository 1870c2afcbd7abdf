import Acceptors.Dfa.Listing
import Acceptors.Samples
import Acceptors.Simulation.Encoding

/-!
# What the command writes

## Main definitions

* `Event.line`: an event as a line
* `Verdict.lines`, `Report.lines`: verdicts and reports as lines
* `Dfa.minimizationLines`, `Sample.listing`: the other listings
-/

namespace Acceptors

/-- The texts in braces, separated by commas. -/
def braced (l : List String) (separator : String) : String :=
  "\x7b" ++ separator.intercalate l ++ "\x7d"

/-- The variables with their values, in braces. -/
def Goto.Variables.text (vars : Goto.Variables) : String :=
  braced (vars.map fun (name, n) => Text.quoted name ++ ": " ++ toString n) ", "

/-- An event as a line. -/
def Event.line : Event → String
  | row span cells =>
    "[chart] span " ++ toString span ++ ": " ++ " ".intercalate (cells.map (braced · ","))
  | configuration c waiting =>
    "[search] " ++ c.text ++ " (" ++ toString waiting ++ " waiting)"
  | state name => "[dfa] " ++ name
  | statement s vars => "[goto] " ++ Text.padRight 24 s.text ++ " " ++ vars.text

/-- The evidence as lines. -/
def Evidence.lines : Evidence → List String
  | explanation e => ["  tree: " ++ e.tree.text, "  derivation: " ++ e.derivation.text]
  | halted c => ["  halted after " ++ toString c.steps ++ " steps: " ++ c.text]
  | exhausted explored =>
    ["  undecided: step limit reached after " ++ toString explored ++ " configurations"]
  | path states => ["  path: " ++ " -> ".intercalate states]
  | value output vars =>
    ["  output: " ++ toString output, "  variables: " ++ vars.text]
  | failure f => ["  failed: " ++ f.message]
  | nothing => []

/-- A verdict as lines, an empty one in front. -/
def Verdict.lines (v : Verdict) : List String :=
  ["", v.word.shown ++ ": " ++ if v.accepted then "accept" else "reject"] ++ v.evidence.lines

/-- A report on what is defined as lines. -/
def Report.lines (r : Report) (d : Definition) : List String :=
  [d.name ++ " (" ++ d.kind.fileExtension ++ ")"] ++ r.verdicts.flatMap Verdict.lines ++
    ["", toString r.accepted ++ " accepted, " ++ toString r.rejected ++ " rejected"]

/-- The words of a simulation with its events as lines. -/
def Simulation.lines (w : Word) (s : Simulation) : List String :=
  ("-- " ++ w.shown ++ " --") :: s.events.map Event.line

/-- The tables of a minimization as lines. -/
def Dfa.passLines (d : Dfa) : List String :=
  d.refinements.map fun t =>
    "[minimize] after pass " ++ toString t.passes ++ ":\n" ++ t.render

/-- The complete table, its marks and the automaton on its classes as lines. -/
def Dfa.minimizationLines (d : Dfa) : List String :=
  let t := d.minimize
  ["Distinguish table (" ++ toString t.passes ++ " passes):", t.render] ++
    (t.marked.map fun (p, q, w) =>
      "  " ++ p ++ " / " ++ q ++ " distinguished by '" ++ .ofList w ++ "'") ++
    match d.quotient? t with
    | none => []
    | some q =>
      ["", "Minimal DFA (" ++ toString q.states.length ++ " states):"] ++ q.listing ++ [""]

/-- A sample as a line. -/
def Sample.line (s : Sample) : String :=
  match s.definition with
  | .ok d =>
    "  " ++ Text.padRight 24 s.file ++ " " ++ Text.padRight 20 d.name ++ " " ++
      toString d.checks.length ++ " checks"
  | .error f => "  " ++ f.message

/-- The samples as lines. -/
def Sample.listing : List String := "Available samples:" :: Sample.all.map Sample.line

end Acceptors
