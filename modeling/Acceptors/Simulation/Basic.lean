import Acceptors.Definition
import Acceptors.Fault
import Acceptors.Gather
import Acceptors.Goto.Input
import Acceptors.Grammar.Chart
import Acceptors.Machine.Search

/-!
# Deciding words

Every kind of automaton decides words and explains its verdict. On the way it reports what it goes
through: the rows of a chart, the visited configurations, the visited states, or the executed
statements.

## Main definitions

* `Event`, `Evidence`, `Verdict`: what is reported, what explains a verdict, and a verdict
* `Automaton.simulate`: a word with its events and its verdict; nothing if a machine never ends
* `Automaton.simulateAll`, `Report`: several words
-/

namespace Acceptors

/-- What is reported while a word is decided. -/
inductive Event where
  /-- A row of a chart: its span and the names in its cells. -/
  | row (span : Nat) (cells : List (List String))
  /-- A visited configuration and the number of those that wait behind it. -/
  | configuration (c : Configuration) (waiting : Nat)
  /-- A visited state. -/
  | state (name : String)
  /-- A statement with the variables before it is executed. -/
  | statement (s : Goto.Statement) (vars : Goto.Variables)

/-- What explains a verdict. -/
inductive Evidence where
  | explanation (e : Explanation)
  | halted (c : Configuration)
  | exhausted (explored : Nat)
  | path (states : List String)
  | value (output : Int) (vars : Goto.Variables)
  | failure (f : Goto.Failure)
  | nothing

/-- A word, whether it is accepted, and why. -/
structure Verdict where
  word : Word
  accepted : Bool
  evidence : Evidence

/-- What deciding a word reports, and its verdict. -/
structure Simulation where
  events : List Event
  result : Except Fault Verdict

/-! ## Single words -/

section

variable (w : Word)

/-- Decides a word by a grammar. -/
def Grammar.simulate (g : Grammar) : Simulation :=
  match g.indexed with
  | .error d => ⟨[], .error (.defect d)⟩
  | .ok r =>
    { events := (r.rows w).mapIdx fun i cells => .row (i + 1) cells
      result := .ok <|
        match r.parse w with
        | some e => ⟨w, true, .explanation e⟩
        | none => ⟨w, false, .nothing⟩ }

/-- The verdict of a search. -/
def SearchResult.verdict : SearchResult → Verdict
  | accepted c => ⟨w, true, .halted c⟩
  | rejected => ⟨w, false, .nothing⟩
  | exhausted explored => ⟨w, false, .exhausted explored⟩

/-- Decides a word by a machine, with a bound on the number of visited configurations if there is
one. Without a bound it may never end. The tapes are laid out before the bound is looked at. -/
def Machine.simulate (m : Machine) (limit : Option Nat) : Option Simulation :=
  if m.HasRoom then
    (m.searchWithin w limit).map fun e =>
      { events := e.visited.map fun (c, waiting) => .configuration c waiting
        result := .ok (e.outcome.verdict w) }
  else some ⟨[], .error (.tooManyTapes m.tapeCount)⟩

theorem Machine.simulate_of_hasRoom {m : Machine} (h : m.HasRoom) (limit : Option Nat) :
    m.simulate w limit = (m.searchWithin w limit).map fun e =>
      { events := e.visited.map fun (c, waiting) => .configuration c waiting
        result := .ok (e.outcome.verdict w) } := if_pos h

theorem Machine.simulate_of_not_hasRoom {m : Machine} (h : ¬ m.HasRoom) (limit : Option Nat) :
    m.simulate w limit = some ⟨[], .error (.tooManyTapes m.tapeCount)⟩ := if_neg h

/-- Decides a word by a deterministic automaton. A symbol outside the alphabet rejects it. -/
def Dfa.simulate (d : Dfa) : Simulation :=
  match d.run w with
  | .ok states =>
    { events := states.map .state
      result := .ok ⟨w, states.getLast?.any d.isAccepting, .path states⟩ }
  | .error (.unknownSymbol _) => ⟨[], .ok ⟨w, false, .nothing⟩⟩
  | .error (.unknownState name) => ⟨[], .error (.unknownState name)⟩

/-- Decides a word by a program, with a budget of statements. The word is accepted if the program
stops. -/
def Goto.Program.simulate (p : Program) (limit : Option Nat) : Simulation :=
  match input? w with
  | none => ⟨[], .error (.notAnInteger w)⟩
  | some n =>
    let run := p.run n (limit.getD defaultBudget)
    { events := run.trace.map fun (s, vars) => .statement s vars
      result := .ok <|
        match run.result with
        | .ok e => ⟨w, true, .value e.output e.vars⟩
        | .error f => ⟨w, false, .failure f⟩ }

/-- Decides a word; nothing if a machine without a bound never ends. -/
def Automaton.simulate (limit : Option Nat) : Automaton → Option Simulation
  | grammar g => some (g.simulate w)
  | machine m => m.simulate w limit
  | dfa d => some (d.simulate w)
  | goto p => some (p.simulate w limit)

end

/-! ## Several words -/

/-- Decides words in order up to the first fault. -/
def Automaton.simulateAll (a : Automaton) (limit : Option Nat) :
    List Word → Option (List Simulation)
  | [] => some []
  | w :: ws => do
    let s ← a.simulate w limit
    match s.result with
    | .error _ => return [s]
    | .ok _ =>
      let rest ← simulateAll a limit ws
      return s :: rest

/-- The verdicts on several words. -/
structure Report where
  verdicts : List Verdict

namespace Report

/-- The number of accepted words. -/
def accepted (r : Report) : Nat := r.verdicts.countP fun v => v.accepted

/-- The number of rejected words. -/
def rejected (r : Report) : Nat := r.verdicts.countP fun v => !v.accepted

/-- The verdicts of simulations, or the first fault. -/
def ofSimulations (l : List Simulation) : Except Fault Report :=
  (gather (l.map Simulation.result)).map Report.mk

theorem accepted_add_rejected (r : Report) : r.accepted + r.rejected = r.verdicts.length := by
  unfold accepted rejected
  rw [List.length_eq_countP_add_countP (p := fun v : Verdict => v.accepted)]
  simp

end Report

/-- The verdicts of an automaton on several words. -/
def Automaton.report (a : Automaton) (limit : Option Nat) (words : List Word) :
    Option (Except Fault Report) :=
  (a.simulateAll limit words).map Report.ofSimulations

end Acceptors
