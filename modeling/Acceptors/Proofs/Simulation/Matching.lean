import Acceptors.Proofs.Dfa.Quotient
import Acceptors.Proofs.Goto.Executed
import Acceptors.Proofs.Simulation.Observers
import Acceptors.Proofs.Simulation.Ready

/-!
# Events match verdicts

A simulation explains its verdict twice, by the events on the way and by the evidence in the end.
Both tell the same: the rows of a chart, the visited configurations, the visited states and the
executed statements are those that the evidence is about, whether the word is accepted, rejected,
cut off or has failed.

## Main definitions

* `RowsMatch`, `VisitsMatch`, `PathMatches`, `StatementsMatch`: events and verdicts of each kind
* `TraceLeads`: executed statements and what they lead to
* `Automaton.Matches`: events and verdicts of an automaton

## Main results

* `getLast?_visited_of_accepted`, `length_visited_of_exhausted`: where searches end
* `Automaton.IsReady.events_match`: the events of a simulation match its verdict
* `Description.events_match_verdict`: the same for what a text holds, with any observer
-/

namespace Acceptors

/-! ## What it means to match -/

/-- The span of a row; nothing for other events. -/
def Event.span? : Event → Option Nat
  | .row span _ => some span
  | _ => none

/-- The events are a row for each span of the word, and what is accepted has an explanation. -/
structure RowsMatch (w : Word) (events : List Event) (v : Verdict) : Prop where
  /-- There is one row for each span, from one to the length of the word, and nothing else. -/
  spans_eq : events.map Event.span? = (List.range' 1 w.length).map some
  accepted_iff : v.accepted = true ↔ ∃ e, v.evidence = .explanation e

/-- The events are visited configurations, and the search ended behind the last one. -/
structure VisitsMatch (events : List Event) (v : Verdict) : Prop where
  visits : ∀ e ∈ events, ∃ c waiting, e = .configuration c waiting
  accepted_iff : v.accepted = true ↔ ∃ c, v.evidence = .halted c
  /-- The configuration that accepts is the last one that was visited. -/
  last_of_halted : ∀ c, v.evidence = .halted c →
    ∃ waiting, events.getLast? = some (.configuration c waiting)
  /-- A search that was cut off has counted its visits. -/
  length_of_exhausted : ∀ explored, v.evidence = .exhausted explored → events.length = explored

/-- The events are the states of the path, which there is if the word keeps to the alphabet. -/
structure PathMatches (d : Dfa) (w : Word) (events : List Event) (v : Verdict) : Prop where
  accepted_eq : v.accepted = d.accepts w
  of_inside : (∀ c ∈ w, c ∈ d.alphabet) →
    ∃ states, v.evidence = .path states ∧ events = states.map .state
  of_outside : ∀ c ∈ w, c ∉ d.alphabet →
    events = [] ∧ v.evidence = .nothing ∧ v.accepted = false

/-- Executed one after the other, the reported statements lead from the input to what the evidence
tells: the variables of a program that stops, or the failure of its last operator. -/
structure TraceLeads (p : Goto.Program) (input : Int)
    (reported : List (Goto.Statement × Goto.Variables)) (evidence : Evidence) : Prop where
  /-- Each statement stands with the variables that those before it lead to. -/
  before : ∀ k st vars, reported[k]? = some (st, vars) →
    Goto.executeAll [(p.input, input)] ((reported.take k).map Prod.fst) = .ok vars
  of_value : ∀ output vars, evidence = .value output vars →
    Goto.executeAll [(p.input, input)] (reported.map Prod.fst) = .ok vars ∧
      output = vars.get p.output
  of_arithmetic : ∀ e, evidence = .failure (.arithmetic e) →
    Goto.executeAll [(p.input, input)] (reported.map Prod.fst) = .error e
  of_budgetSpent : ∀ spent label, evidence = .failure (.budgetSpent spent label) →
    reported.length = spent

/-- The events are the executed statements, and they lead to what the verdict tells. -/
structure StatementsMatch (p : Goto.Program) (w : Word) (events : List Event) (v : Verdict) :
    Prop where
  accepted_iff : v.accepted = true ↔ ∃ output vars, v.evidence = .value output vars
  executed : ∃ input reported, Goto.input? w = some input ∧ events = reported.map .ofStatement ∧
    TraceLeads p input reported v.evidence

/-- The events and the verdict of a word tell the same. -/
def Automaton.Matches (w : Word) (events : List Event) (v : Verdict) : Automaton → Prop
  | grammar _ => RowsMatch w events v
  | machine _ => VisitsMatch events v
  | dfa d => PathMatches d w events v
  | goto p => StatementsMatch p w events v

/-! ## Charts -/

section

variable {w : Word} {v : Verdict}

theorem Grammar.RuleIndex.length_rows (r : RuleIndex) (w : Word) :
    (r.rows w).length = w.length := by
  unfold rows
  split
  · next hw => rw [List.isEmpty_iff.mp hw]; rfl
  · next hw =>
    have hpos : 0 < w.length := List.length_pos_iff.mpr (by simpa using hw)
    rw [List.length_map, Array.length_toList, chart, size_chartUpTo]
    omega

/-- Rows are counted from one. -/
theorem spans_of_rows (rows : List (List (List String))) :
    (rows.mapIdx fun i cells => Event.row (i + 1) cells).map Event.span? =
      (List.range' 1 rows.length).map some := by
  apply List.ext_getElem?
  intro i
  rw [List.getElem?_map, List.getElem?_map, List.getElem?_mapIdx]
  by_cases hi : i < rows.length
  · rw [List.getElem?_eq_getElem hi, List.getElem?_range' (by simpa using hi)]
    simp [Event.span?, Nat.add_comm]
  · rw [List.getElem?_eq_none (by omega), List.getElem?_eq_none (by simpa using hi)]
    rfl

/-- The rows of a simulation match its verdict. -/
theorem Grammar.rowsMatch {g : Grammar} (hv : (g.simulate w).result = .ok v) :
    RowsMatch w (g.simulate w).events v := by
  unfold simulate at hv ⊢
  cases hr : g.indexed with
  | error d => simp [hr] at hv
  | ok r =>
    simp only [hr, Except.ok.injEq] at hv
    refine ⟨?_, ?_⟩
    · simp only [spans_of_rows, r.length_rows]
    · subst hv
      cases r.parse w with
      | none => simp
      | some e => simp

/-! ## Searches -/

namespace Machine

variable {m : Machine} {q : Queue Configuration} {explored bound : Nat}

/-- A search that accepts ends with the configuration that it accepts. -/
theorem getLast?_visited_of_accepted {c : Configuration} :
    (m.explore explored q bound).outcome = .accepted c →
      ∃ waiting, (m.explore explored q bound).visited.getLast? = some (c, waiting) := by
  refine m.explore_induction
    (motive := fun _ _ e => e.outcome = .accepted c →
      ∃ waiting, e.visited.getLast? = some (c, waiting))
    ?empty ?cut ?accepts ?goesOn
  case empty => simp
  case cut => simp
  case accepts =>
    intro _ _ d waiting h
    obtain rfl : d = c := SearchResult.accepted.inj h
    exact ⟨waiting, rfl⟩
  case goesOn =>
    -- what the rest ends with is what the search ends with
    intro _ _ visit e ih h
    obtain ⟨waiting, hlast⟩ := ih h
    rw [Exploration.after, List.getLast?_cons, hlast]
    exact ⟨waiting, rfl⟩

/-- A search that is cut off tells the number of its visits. -/
theorem length_visited_of_exhausted {k : Nat} :
    (m.explore explored q bound).outcome = .exhausted k →
      k = explored + (m.explore explored q bound).visited.length := by
  refine m.explore_induction
    (motive := fun explored _ e => e.outcome = .exhausted k → k = explored + e.visited.length)
    ?empty ?cut ?accepts ?goesOn
  case empty => simp
  case cut =>
    intro explored h
    exact (SearchResult.exhausted.inj h).symm
  case accepts => simp
  case goesOn =>
    intro explored _ visit e ih h
    rw [Exploration.after, List.length_cons, ih h]
    omega

theorem evidence_eq_halted_iff {r : SearchResult} {c : Configuration} :
    (r.verdict w).evidence = .halted c ↔ r = .accepted c := by
  cases r <;> simp [SearchResult.verdict]

theorem evidence_eq_exhausted_iff {r : SearchResult} {k : Nat} :
    (r.verdict w).evidence = .exhausted k ↔ r = .exhausted k := by
  cases r <;> simp [SearchResult.verdict]

/-- The visits of a search match its verdict. -/
theorem visitsMatch_search (m : Machine) (w : Word) (bound : Nat) :
    VisitsMatch ((m.search w bound).visited.map .ofVisit)
      ((m.search w bound).outcome.verdict w) := by
  refine ⟨?_, ?_, ?_, ?_⟩
  · intro e he
    obtain ⟨⟨c, waiting⟩, -, rfl⟩ := List.mem_map.mp he
    exact ⟨c, waiting, rfl⟩
  · cases (m.search w bound).outcome <;> simp [SearchResult.verdict]
  · intro c hc
    obtain ⟨waiting, hlast⟩ := getLast?_visited_of_accepted (evidence_eq_halted_iff.mp hc)
    refine ⟨waiting, ?_⟩
    rw [List.getLast?_map, search, hlast]
    rfl
  · intro k hk
    have hlength : k = 0 + (m.search w bound).visited.length :=
      length_visited_of_exhausted (evidence_eq_exhausted_iff.mp hk)
    rw [List.length_map]
    omega

end Machine

/-! ## Runs of automata -/

/-- The states of a simulation match its verdict. -/
theorem Dfa.pathMatches {d : Dfa} (hd : d.IsComplete) (hnames : d.names.Nodup)
    (hv : (d.simulate w).result = .ok v) : PathMatches d w (d.simulate w).events v := by
  have herror := fun e => run_eq_error_iff (w := w) hd hnames (e := e)
  unfold simulate at hv ⊢
  cases hrun : d.run w with
  | ok states =>
    have haccepts : d.accepts w = states.getLast?.any d.isAccepting := by
      rw [accepts, acceptsFrom, ← run, hrun]
    simp only [hrun, Except.ok.injEq] at hv
    subst hv
    refine ⟨haccepts.symm, fun _ => ⟨states, rfl, rfl⟩, ?_⟩
    intro c hc hout
    -- a symbol outside the alphabet would have stopped the run
    have hfind : (w.find? fun c => !d.alphabet.contains c) ≠ none := by
      simpa using ⟨c, hc, hout⟩
    obtain ⟨e, he⟩ := Option.ne_none_iff_exists'.mp hfind
    have hstopped := (herror _).mpr ⟨e, he, rfl⟩
    rw [hrun] at hstopped
    cases hstopped
  | error e =>
    obtain ⟨c, hfind, rfl⟩ := (herror e).mp hrun
    have haccepts : d.accepts w = false := by rw [accepts, acceptsFrom, ← run, hrun]
    simp only [hrun, Except.ok.injEq] at hv
    subst hv
    refine ⟨haccepts.symm, ?_, fun _ _ _ => ⟨rfl, rfl, rfl⟩⟩
    intro hall
    have hc : c ∉ d.alphabet := by simpa using List.find?_some hfind
    exact absurd (hall c (List.mem_of_find?_eq_some hfind)) hc

/-! ## Runs of programs -/

namespace Goto

/-- What a run tells in its verdict. -/
def Run.evidence (r : Run) : Evidence :=
  match r.result with
  | .ok e => .value e.output e.vars
  | .error f => .failure f

theorem Run.evidence_eq_value_iff {r : Run} {output : Int} {vars : Variables} :
    r.evidence = .value output vars ↔
      ∃ e, r.result = .ok e ∧ e.output = output ∧ e.vars = vars := by
  rw [evidence]
  cases r.result <;> simp

theorem Run.evidence_eq_failure_iff {r : Run} {f : Failure} :
    r.evidence = .failure f ↔ r.result = .error f := by
  rw [evidence]
  cases r.result <;> simp

namespace Program

variable {p : Program}

/-- The statements of a run lead to what it tells. -/
theorem traceLeads_run (hp : p.IsConsistent) (input : Int) (budget : Nat) :
    TraceLeads p input (p.run input budget).trace (p.run input budget).evidence := by
  obtain ⟨s, hs⟩ := hp.exists_starts input
  have hvars : s.vars = [(p.input, input)] := (hp.starts_iff.mp hs).2
  have hends : p.EndsAs (executeAll [(p.input, input)] ((p.run input budget).trace.map Prod.fst))
      (p.run input budget).result := by
    rw [hp.run_eq_runFrom hs, ← hvars]
    exact endsAs_runFrom
  refine ⟨?_, ?_, ?_, ?_⟩
  · intro k st vars hk
    rw [hp.run_eq_runFrom hs] at hk ⊢
    rw [← hvars]
    exact executeAll_take_trace hk
  · intro output vars hev
    obtain ⟨e, hresult, rfl, rfl⟩ := Run.evidence_eq_value_iff.mp hev
    rw [hresult] at hends
    exact hends
  · intro e hev
    rw [Run.evidence_eq_failure_iff.mp hev] at hends
    exact hends
  · intro spent label hev
    rw [Run.evidence_eq_failure_iff, hp.run_eq_runFrom hs] at hev
    have hlength := length_trace_of_budgetSpent hev
    rw [hp.run_eq_runFrom hs]
    omega

/-- The statements of a simulation match its verdict. -/
theorem statementsMatch (hp : p.IsConsistent) {limit : Option Nat}
    (hv : (p.simulate w limit).result = .ok v) :
    StatementsMatch p w (p.simulate w limit).events v := by
  unfold simulate at hv ⊢
  cases hn : input? w with
  | none => simp [hn] at hv
  | some n =>
    have hleads := traceLeads_run hp n (limit.getD defaultBudget)
    -- the verdict is made from the result of the run
    simp only [hn, Except.ok.injEq] at hv
    have hevidence : v.evidence = (p.run n (limit.getD defaultBudget)).evidence := by
      rw [← hv, Run.evidence]
      cases (p.run n (limit.getD defaultBudget)).result <;> rfl
    have haccepted : v.accepted = true ↔ ∃ output vars, v.evidence = .value output vars := by
      rw [← hv]
      cases (p.run n (limit.getD defaultBudget)).result <;> simp
    exact ⟨haccepted, n, _, hn, rfl, hevidence ▸ hleads⟩

end Program

end Goto

/-! ## Simulations -/

/-- The events of a simulation match its verdict, if there is one. -/
theorem Automaton.IsReady.events_match {a : Automaton} (h : a.IsReady) {limit : Option Nat}
    {s : Simulation} (hs : a.simulate w limit = some s) (hv : s.result = .ok v) :
    a.Matches w s.events v := by
  cases a with
  | grammar g =>
    obtain rfl : g.simulate w = s := Option.some.inj hs
    exact Grammar.rowsMatch hv
  | machine m =>
    change m.simulate w limit = some s at hs
    by_cases hroom : m.HasRoom
    · rw [Machine.simulate_of_hasRoom w hroom] at hs
      obtain ⟨e, he, rfl⟩ := Option.map_eq_some_iff.mp hs
      obtain rfl : e.outcome.verdict w = v := Except.ok.inj hv
      -- a search without bound is one with a bound
      obtain ⟨bound, rfl⟩ := Machine.exists_bound_of_searchWithin he
      exact m.visitsMatch_search w bound
    · rw [Machine.simulate_of_not_hasRoom w hroom] at hs
      obtain rfl := Option.some.inj hs
      cases hv
  | dfa d =>
    obtain rfl : d.simulate w = s := Option.some.inj hs
    exact Dfa.pathMatches h.1 h.2 hv
  | goto p =>
    obtain rfl : p.simulate w limit = s := Option.some.inj hs
    exact Goto.Program.statementsMatch h hv

/-- A simulation ends unless it is a search without bound. -/
theorem Automaton.exists_simulate {a : Automaton} {limit : Option Nat}
    (hlimit : a.kind = .machine → limit.isSome) : ∃ s, a.simulate w limit = some s := by
  cases a with
  | machine m =>
    obtain ⟨bound, rfl⟩ := Option.isSome_iff_exists.mp (hlimit rfl)
    by_cases hroom : m.HasRoom
    · exact ⟨_, Machine.simulate_of_hasRoom w hroom (some bound)⟩
    · exact ⟨_, Machine.simulate_of_not_hasRoom w hroom (some bound)⟩
  | grammar g => exact ⟨_, rfl⟩
  | dfa d => exact ⟨_, rfl⟩
  | goto p => exact ⟨_, rfl⟩

end

/-- **The events and the verdict of a simulation tell the same, and observing it changes nothing.**
What a text holds is simulated with the same result whatever an observer does with what it is
handed, and the observer is handed the events in their order. If the result is a verdict, it matches
the events: the rows of a chart are counted from one to the length of the word, and the word is
accepted exactly if it has an explanation; the configuration that accepts is the last one that was
visited, and a search that is cut off tells how many it visited; the states are those of the path,
and a symbol outside the alphabet leaves no path and no acceptance; the executed statements lead
from the input to the output and the variables of an accepted word, or to its failure. -/
theorem Description.events_match_verdict {kind : Kind} {text : List Char} {defn : Definition}
    (h : parse kind text = .ok defn) (w : Word) (limit : Option Nat)
    (hlimit : defn.kind = .machine → limit.isSome) :
    ∃ s, defn.automaton.simulate w limit = some s ∧
      (∀ {σ : Type} (observe : σ → Event → σ) (start : σ),
        defn.automaton.simulateWith observe w start limit =
          some (s.events.foldl observe start, s.result)) ∧
      ∀ v, s.result = .ok v → defn.automaton.Matches w s.events v := by
  obtain ⟨hready, -⟩ := isReady_of_parse h
  obtain ⟨s, hs⟩ := Automaton.exists_simulate (w := w) hlimit
  refine ⟨s, hs, ?_, fun v hv => hready.events_match hs hv⟩
  intro σ observe start
  rw [Automaton.simulateWith_eq, hs]
  rfl

/-- Flipping two digits takes four visits, and the last one accepts. -/
theorem Description.binaryComplement_matches :
    ∃ defn, parse .machine Sample.binaryComplement.text = .ok defn ∧
      (defn.kind = .machine → (some 9).isSome) ∧
        ∃ s c waiting, defn.automaton.simulate ['1', '0'] (some 9) = some s ∧
          s.result = .ok ⟨['1', '0'], true, .halted c⟩ ∧
          s.events.getLast? = some (.configuration c waiting) ∧
          defn.automaton.simulateWith (fun n _ => n + 1) ['1', '0'] 0 (some 9) =
            some (4, s.result) := by
  obtain ⟨defn, hparse, ⟨m, hm⟩, s, c, hs, hresult, hcount⟩ :
      ∃ defn, parse .machine Sample.binaryComplement.text = .ok defn ∧
        (∃ m, defn.automaton = .machine m) ∧
        ∃ s c, defn.automaton.simulate ['1', '0'] (some 9) = some s ∧
          s.result = .ok ⟨['1', '0'], true, .halted c⟩ ∧
          s.events.foldl (fun n _ => n + 1) 0 = 4 :=
    ⟨_, rfl, ⟨_, rfl⟩, _, _, rfl, rfl, rfl⟩
  have hlimit : defn.kind = .machine → (some 9).isSome := fun _ => rfl
  obtain ⟨s', hs', hobserved, hmatches⟩ := events_match_verdict hparse ['1', '0'] (some 9) hlimit
  obtain rfl : s = s' := Option.some.inj (hs.symm.trans hs')
  have hvisits := hmatches _ hresult
  rw [hm] at hvisits
  obtain ⟨waiting, hlast⟩ := VisitsMatch.last_of_halted hvisits c rfl
  refine ⟨defn, hparse, hlimit, s, c, waiting, hs, hresult, hlast, ?_⟩
  rw [hobserved, hcount]

end Acceptors
