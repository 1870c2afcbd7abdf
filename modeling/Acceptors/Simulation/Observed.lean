import Acceptors.Simulation.Basic

/-!
# Deciding words under observation

What a simulation goes through may be handed to an observer at once, in the midst of the loop that
decides the word. An observer is a function on a state of its own. A row of a chart is observed when
it is filled, and a configuration or a statement when its turn has come and the bound has not cut it
off. The states of a deterministic automaton are observed behind their run.

## Main definitions

* `RuleIndex.fillWith`, `RuleIndex.parseWith`: charts under observation
* `Machine.exploreWith`, `Machine.exploreAllWith`: searches under observation, with a bound and
  without
* `Goto.Program.runFromWith`, `Goto.Program.runWith`: runs under observation
* `Automaton.simulateWith`: a verdict and the state that the observer is left in
-/

namespace Acceptors

section

variable {σ : Type} (observe : σ → Event → σ)

/-! ## Charts -/

namespace Grammar.RuleIndex

variable (r : RuleIndex)

/-- The names in the cells of a row, as they are shown. -/
def shown (row : Array Cell) : List (List String) :=
  row.toList.map fun cell => cell.map fun a => displayLabel ((r.names[a]?).getD "")

/-- The row of a span in a chart as an event. -/
def snapshot (chart : Chart) (span : Nat) : Event :=
  .row span (((chart[span - 1]?).map r.shown).getD [])

/-- The chart up to the given number of rows beyond the first, each row observed when it is
filled. -/
def fillWith (w : Word) (start : σ) : Nat → σ × Chart
  | 0 =>
    let chart := #[r.firstRow w]
    (observe start (r.snapshot chart 1), chart)
  | n + 1 =>
    let (s, below) := fillWith w start n
    let chart := below.push (r.joinedRow w.length below (n + 2))
    (observe s (r.snapshot chart (n + 2)), chart)

/-- The explanation of a word that is not empty, from its chart. -/
def explain (chart : Chart) (w : Word) : Option Explanation :=
  if (chart.cell w.length 0).contains 0 then
    (r.build chart w w.length 0 w.length 0).map fun (tree, steps) => ⟨tree, ⟨r.startName, steps⟩⟩
  else none

/-- The explanation of a word, with its rows observed. The empty word has no rows. -/
def parseWith (w : Word) (start : σ) : σ × Option Explanation :=
  if w.isEmpty then (start, r.parseEmpty)
  else
    let (s, chart) := r.fillWith observe w start (w.length - 1)
    (s, r.explain chart w)

end Grammar.RuleIndex

/-! ## Searches -/

namespace Machine

variable (m : Machine)

/-- The search from a queue on, each configuration observed when it is taken from the queue. -/
def exploreWith (explored : Nat) (queue : Queue Configuration) (s : σ) : Nat → σ × SearchResult
  | 0 =>
    match queue.pop? with
    | none => (s, .rejected)
    | some _ => (s, .exhausted explored)
  | bound + 1 =>
    match queue.pop? with
    | none => (s, .rejected)
    | some (c, rest) =>
      let s := observe s (.configuration c rest.size)
      if m.accepting c then (s, .accepted c)
      else exploreWith (explored + 1) (rest.pushAll (m.successors c)) s bound

/-- The search from a queue on without a bound, each configuration observed when it is taken from
the queue; nothing if it never ends. -/
def exploreAllWith (queue : Queue Configuration) (s : σ) : Option (σ × SearchResult) :=
  match queue.pop? with
  | none => some (s, .rejected)
  | some (c, rest) =>
    let s := observe s (.configuration c rest.size)
    if m.accepting c then some (s, .accepted c)
    else by
      -- by a tactic, as in `exploreAll`
      apply exploreAllWith
      · exact rest.pushAll (m.successors c)
      · exact s
partial_fixpoint

/-- The search on a word with a bound and its configurations observed. -/
def searchWith (w : Word) (start : σ) (bound : Nat) : σ × SearchResult :=
  m.exploreWith observe 0 (.single (m.initialConfiguration w)) start bound

/-- The search on a word with a bound, if there is one, and its configurations observed. -/
def observedSearch (w : Word) (start : σ) : Option Nat → Option (σ × SearchResult)
  | some bound => some (m.searchWith observe w start bound)
  | none => m.exploreAllWith observe (.single (m.initialConfiguration w)) start

end Machine

/-! ## Runs of programs -/

namespace Goto.Program

variable (p : Program)

/-- The run from place `pc` on, each statement observed before it is executed. -/
def runFromWith (pc : Nat) (vars : Variables) (steps : Nat) (s : σ) :
    Nat → σ × Except Failure Execution
  | 0 =>
    match p.statements[pc]? with
    | none => (s, .ok (p.finish vars steps))
    | some st => (s, .error (.budgetSpent steps st.label))
  | budget + 1 =>
    match p.statements[pc]? with
    | none => (s, .ok (p.finish vars steps))
    | some st =>
      let s := observe s (.statement st vars)
      match p.advance pc st vars with
      | .error e => (s, .error e)
      | .ok none => (s, .ok (p.finish vars (steps + 1)))
      | .ok (some (pc', vars')) => runFromWith pc' vars' (steps + 1) s budget

/-- The run on the given input with a budget and its statements observed. -/
def runWith (input : Int) (start : σ) (budget : Nat) : σ × Except Failure Execution :=
  match p.entry with
  | .error e => (start, .error e)
  | .ok pc => p.runFromWith observe pc (Variables.set [] p.input input) 0 start budget

end Goto.Program

/-! ## Single words -/

variable (w : Word) (start : σ)

/-- Decides a word by a grammar under observation. -/
def Grammar.simulateWith (g : Grammar) : σ × Except Fault Verdict :=
  match g.indexed with
  | .error d => (start, .error (.defect d))
  | .ok r =>
    match r.parseWith observe w start with
    | (s, some e) => (s, .ok ⟨w, true, .explanation e⟩)
    | (s, none) => (s, .ok ⟨w, false, .nothing⟩)

/-- Decides a word by a machine under observation. -/
def Machine.simulateWith (m : Machine) (limit : Option Nat) : Option (σ × Except Fault Verdict) :=
  if m.HasRoom then
    (m.observedSearch observe w start limit).map fun (s, result) => (s, .ok (result.verdict w))
  else some (start, .error (.tooManyTapes m.tapeCount))

/-- Decides a word by a deterministic automaton under observation. -/
def Dfa.simulateWith (d : Dfa) : σ × Except Fault Verdict :=
  match d.run w with
  | .ok states =>
    (states.foldl (fun s name => observe s (.state name)) start,
      .ok ⟨w, states.getLast?.any d.isAccepting, .path states⟩)
  | .error (.unknownSymbol _) => (start, .ok ⟨w, false, .nothing⟩)
  | .error (.unknownState name) => (start, .error (.unknownState name))

/-- Decides a word by a program under observation. -/
def Goto.Program.simulateWith (p : Program) (limit : Option Nat) : σ × Except Fault Verdict :=
  match input? w with
  | none => (start, .error (.notAnInteger w))
  | some n =>
    match p.runWith observe n start (limit.getD defaultBudget) with
    | (s, .ok e) => (s, .ok ⟨w, true, .value e.output e.vars⟩)
    | (s, .error f) => (s, .ok ⟨w, false, .failure f⟩)

/-- Decides a word under observation; nothing if a machine without a bound never ends. The result
comes with the state that the observer is left in. -/
def Automaton.simulateWith (limit : Option Nat) : Automaton → Option (σ × Except Fault Verdict)
  | grammar g => some (g.simulateWith observe w start)
  | machine m => m.simulateWith observe w start limit
  | dfa d => some (d.simulateWith observe w start)
  | goto p => some (p.simulateWith observe w start limit)

end

end Acceptors
