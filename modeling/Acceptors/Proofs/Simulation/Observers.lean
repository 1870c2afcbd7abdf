import Acceptors.Proofs.Grammar.Chart
import Acceptors.Simulation.Observed

/-!
# Observers change nothing

Whatever an observer does with what it is handed, the word is decided as if there was none: the
loops go the same way, and the observer is handed the reported events in their order and nothing
else.

## Main definitions

* `Simulation.observed`: the result of a simulation whose events are handed to an observer

## Main results

* `fillWith_eq`, `exploreWith_eq`, `exploreAllWith_eq`, `runFromWith_eq`: the loops under
  observation
* `simulateWith_eq`: verdicts under observation
-/

namespace Acceptors

section

variable {σ : Type} (observe : σ → Event → σ)

/-! ## Charts -/

namespace Grammar.RuleIndex

variable (r : RuleIndex) (w : Word) (start : σ)

/-- The rows of a chart as events. -/
def rowEvents (chart : Chart) : List Event :=
  (chart.toList.map r.shown).mapIdx fun i cells => .row (i + 1) cells

theorem rowEvents_push (chart : Chart) (row : Array Cell) :
    r.rowEvents (chart.push row) =
      r.rowEvents chart ++ [r.snapshot (chart.push row) (chart.size + 1)] := by
  simp [rowEvents, snapshot, List.mapIdx_append]

/-- The observer of a chart is handed each of its rows. -/
theorem fillWith_eq (n : Nat) :
    r.fillWith observe w start n =
      ((r.rowEvents (r.chartUpTo w n)).foldl observe start, r.chartUpTo w n) := by
  induction n with
  | zero => rfl
  | succ n ih =>
    -- the row that is observed is the last one of the chart so far
    rw [fillWith, ih, chartUpTo, rowEvents_push, size_chartUpTo, List.foldl_append]
    rfl

/-- The rows of a word as events. -/
theorem mapIdx_rows :
    ((r.rows w).mapIdx fun i cells => Event.row (i + 1) cells) =
      if w.isEmpty then [] else r.rowEvents (r.chart w) := by
  unfold rows
  split <;> rfl

theorem parseWith_eq :
    r.parseWith observe w start =
      (((r.rows w).mapIdx fun i cells => Event.row (i + 1) cells).foldl observe start,
        r.parse w) := by
  rw [mapIdx_rows, parseWith, parse]
  split
  · rfl
  · rw [fillWith_eq]
    rfl

end Grammar.RuleIndex

/-! ## Searches -/

/-- A visited configuration as an event. -/
def Event.ofVisit (visit : Configuration × Nat) : Event := .configuration visit.1 visit.2

namespace Machine

variable (m : Machine)

/-- The observer of a search is handed each visited configuration. -/
theorem exploreWith_eq (explored : Nat) (q : Queue Configuration) (s : σ) (bound : Nat) :
    m.exploreWith observe explored q s bound =
      (((m.explore explored q bound).visited.map .ofVisit).foldl observe s,
        (m.explore explored q bound).outcome) := by
  induction bound generalizing explored q s with
  | zero =>
    rw [exploreWith, explore]
    cases q.pop? <;> rfl
  | succ bound ih =>
    rw [exploreWith, explore]
    cases q.pop? with
    | none => rfl
    | some next =>
      obtain ⟨c, rest⟩ := next
      dsimp only
      -- the visit is observed before it is known whether the configuration accepts
      split
      · rfl
      · rw [ih]
        rfl

/-- A search without bound that ends does so under observation as well. -/
theorem exploreAllWith_of_exploreAll {q : Queue Configuration} {e : Exploration}
    (h : m.exploreAll q = some e) (s : σ) :
    m.exploreAllWith observe q s =
      some ((e.visited.map .ofVisit).foldl observe s, e.outcome) := by
  refine m.exploreAll_induction
    (motive := fun q e => ∀ s, m.exploreAllWith observe q s =
      some ((e.visited.map .ofVisit).foldl observe s, e.outcome)) ?empty ?accepts ?goesOn h s
  case empty =>
    intro q hq s
    rw [exploreAllWith, hq]
    rfl
  case accepts =>
    intro q c rest hq hc s
    rw [exploreAllWith, hq]
    exact if_pos hc
  case goesOn =>
    intro q c rest e hq hc ih s
    rw [exploreAllWith, hq]
    dsimp only
    rw [if_neg hc, ih]
    rfl

/-- A search without bound that ends under observation does so without. -/
theorem exists_exploreAll_of_exploreAllWith {q : Queue Configuration} {s : σ}
    {r : σ × SearchResult} (h : m.exploreAllWith observe q s = some r) :
    ∃ e, m.exploreAll q = some e := by
  refine exploreAllWith.partial_correctness observe m
    (fun q _ _ => ∃ e, m.exploreAll q = some e) ?_ q s r h
  intro searchRest ih q s r h
  rw [exploreAll]
  cases hq : q.pop? with
  | none => exact ⟨_, rfl⟩
  | some next =>
    obtain ⟨c, rest⟩ := next
    rw [hq] at h
    dsimp only at h ⊢
    by_cases hc : m.accepting c = true
    · exact ⟨_, if_pos hc⟩
    · rw [if_neg hc] at h
      obtain ⟨e, he⟩ := ih _ _ r h
      exact ⟨e.after (c, rest.size), by rw [if_neg hc, he]; rfl⟩

/-- The observer of a search without bound is handed each visited configuration. -/
theorem exploreAllWith_eq (q : Queue Configuration) (s : σ) :
    m.exploreAllWith observe q s =
      (m.exploreAll q).map fun e => ((e.visited.map .ofVisit).foldl observe s, e.outcome) := by
  cases hall : m.exploreAll q with
  | some e => exact m.exploreAllWith_of_exploreAll observe hall s
  | none =>
    cases hwith : m.exploreAllWith observe q s with
    | none => rfl
    | some r =>
      obtain ⟨e, he⟩ := m.exists_exploreAll_of_exploreAllWith observe hwith
      rw [hall] at he
      cases he

theorem searchWith_eq (w : Word) (start : σ) (bound : Nat) :
    m.searchWith observe w start bound =
      (((m.search w bound).visited.map .ofVisit).foldl observe start,
        (m.search w bound).outcome) :=
  m.exploreWith_eq observe 0 _ start bound

theorem observedSearch_eq (w : Word) (start : σ) (limit : Option Nat) :
    m.observedSearch observe w start limit =
      (m.searchWithin w limit).map fun e =>
        ((e.visited.map .ofVisit).foldl observe start, e.outcome) := by
  cases limit with
  | some bound => exact congrArg some (m.searchWith_eq observe w start bound)
  | none => exact m.exploreAllWith_eq observe _ start

end Machine

/-! ## Runs of programs -/

/-- An executed statement as an event. -/
def Event.ofStatement (entry : Goto.Statement × Goto.Variables) : Event :=
  .statement entry.1 entry.2

namespace Goto.Program

variable (p : Program)

/-- The observer of a run is handed each statement with the variables before it. -/
theorem runFromWith_eq (pc : Nat) (vars : Variables) (steps : Nat) (s : σ) (budget : Nat) :
    p.runFromWith observe pc vars steps s budget =
      (((p.runFrom pc vars steps budget).trace.map .ofStatement).foldl observe s,
        (p.runFrom pc vars steps budget).result) := by
  induction budget generalizing pc vars steps s with
  | zero =>
    rw [runFromWith, runFrom]
    cases p.statements[pc]? <;> rfl
  | succ budget ih =>
    rw [runFromWith, runFrom]
    cases p.statements[pc]? with
    | none => rfl
    | some st =>
      dsimp only
      -- the statement is observed before it is known what it leads to
      rcases p.advance pc st vars with e | next
      · rfl
      · rcases next with - | ⟨pc', vars'⟩
        · rfl
        · dsimp only
          rw [ih]
          rfl

theorem runWith_eq (input : Int) (start : σ) (budget : Nat) :
    p.runWith observe input start budget =
      (((p.run input budget).trace.map .ofStatement).foldl observe start,
        (p.run input budget).result) := by
  rw [runWith, run]
  cases p.entry with
  | error e => rfl
  | ok pc => exact p.runFromWith_eq observe pc _ 0 start budget

end Goto.Program

/-! ## Verdicts -/

/-- The result of a simulation whose events are handed to an observer. -/
def Simulation.observed (start : σ) (s : Simulation) : σ × Except Fault Verdict :=
  (s.events.foldl observe start, s.result)

section

variable (w : Word) (start : σ)

theorem Grammar.simulateWith_eq (g : Grammar) :
    g.simulateWith observe w start = (g.simulate w).observed observe start := by
  rw [simulateWith, simulate]
  cases g.indexed with
  | error d => rfl
  | ok r =>
    dsimp only
    rw [r.parseWith_eq]
    cases r.parse w <;> rfl

theorem Machine.simulateWith_eq (m : Machine) (limit : Option Nat) :
    m.simulateWith observe w start limit =
      (m.simulate w limit).map (Simulation.observed observe start) := by
  rw [simulateWith, simulate]
  split
  · rw [m.observedSearch_eq, Option.map_map, Option.map_map]
    rfl
  -- no run starts, and nothing is observed
  · rfl

theorem Dfa.simulateWith_eq (d : Dfa) :
    d.simulateWith observe w start = (d.simulate w).observed observe start := by
  rw [simulateWith, simulate]
  rcases d.run w with (_ | _) | states
  · rfl
  · rfl
  · rw [Simulation.observed, List.foldl_map]

theorem Goto.Program.simulateWith_eq (p : Program) (limit : Option Nat) :
    p.simulateWith observe w start limit = (p.simulate w limit).observed observe start := by
  rw [simulateWith, simulate]
  cases input? w with
  | none => rfl
  | some n =>
    dsimp only
    rw [p.runWith_eq]
    cases (p.run n (limit.getD defaultBudget)).result <;> rfl

/-- Under observation a word gets the verdict that it gets without, and the observer is handed the
events that are reported without it, in their order. -/
theorem Automaton.simulateWith_eq (a : Automaton) (limit : Option Nat) :
    a.simulateWith observe w start limit =
      (a.simulate w limit).map (Simulation.observed observe start) := by
  cases a with
  | grammar g => exact congrArg some (g.simulateWith_eq observe w start)
  | machine m => exact m.simulateWith_eq observe w start limit
  | dfa d => exact congrArg some (d.simulateWith_eq observe w start)
  | goto p => exact congrArg some (p.simulateWith_eq observe w start limit)

end

end

end Acceptors
