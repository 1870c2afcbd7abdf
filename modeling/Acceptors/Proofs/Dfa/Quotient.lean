import Acceptors.Proofs.Description.StateNames
import Acceptors.Proofs.Dfa.Distinguish

/-!
# The quotient follows the automaton

The quotient of an automaton by its complete table runs on a word as the automaton does, one class
for each state that is visited. It runs on names, so the classes have to bear different names; they
do in whatever is read from a text.

## Main results

* `run_eq_error_iff`: where a run of an automaton stops
* `run_quotient`, `accepts_quotient`: runs and acceptance of the quotient
* `quotient_minimize_follows`: the quotient of an automaton that is built from edges
-/

namespace Acceptors

namespace Dfa

variable {d q : Dfa} {w : Word}

/-! ## Runs from the initial state -/

theorem run_eq (hd : d.IsComplete) (hnames : d.names.Nodup) :
    d.run w = (d.path d.initial w).map (·.map d.nameOf) :=
  runFrom_nameOf hnames hd.initial_lt

theorem accepts_eq (hd : d.IsComplete) (hnames : d.names.Nodup) :
    d.accepts w = d.acceptsAfter d.initial w :=
  hd.acceptsFrom_nameOf hnames hd.initial_lt

/-- A run stops at the first symbol outside the alphabet, and only there. -/
theorem run_eq_error_iff (hd : d.IsComplete) (hnames : d.names.Nodup) {e : RunError} :
    d.run w = .error e ↔ ∃ c, w.find? (fun c => !d.alphabet.contains c) = some c ∧
      e = .unknownSymbol c := by
  rw [← hd.path_eq_error_iff hd.initial_lt, run_eq hd hnames]
  cases d.path d.initial w <;> simp [Except.map]

/-! ## Runs of the quotient -/

/-- The quotient visits the classes of the states that the automaton visits. -/
theorem run_quotient (hd : d.IsComplete) (hnames : d.names.Nodup)
    (hq : d.quotient? d.minimize = some q) (hqnames : q.names.Nodup) :
    q.run w = (d.run w).map (·.map d.minimize.classNameOf) := by
  have hsim := simulatedBy_quotient hd hq
  rw [run_eq (isComplete_quotient hd hq) hqnames, run_eq hd hnames, hsim.initial_eq,
    hsim.path_eq hd hd.initial_lt]
  cases hpath : d.path d.initial w with
  | error e => rfl
  | ok visited =>
    refine congrArg Except.ok ?_
    change (visited.map _).map q.nameOf = (visited.map d.nameOf).map d.minimize.classNameOf
    rw [List.map_map, List.map_map]
    -- each state that is visited bears a name, and its class is looked up by that name
    apply List.map_congr_left
    intro t ht
    exact nameOf_classOf hd hnames hq (hd.lt_of_mem_path hd.initial_lt hpath ht)

theorem accepts_quotient (hd : d.IsComplete) (hnames : d.names.Nodup)
    (hq : d.quotient? d.minimize = some q) (hqnames : q.names.Nodup) :
    q.accepts w = d.accepts w := by
  have hsim := simulatedBy_quotient hd hq
  rw [accepts_eq (isComplete_quotient hd hq) hqnames, accepts_eq hd hnames, hsim.initial_eq,
    hsim.acceptsAfter_eq hd hd.initial_lt]

/-- **The quotient follows each step of the automaton.** If its classes bear different names, as
they do in what is read from a text, it visits the class of each state that the automaton visits,
stops at the same symbol, and accepts the same words. -/
theorem quotient_minimize_follows {initial : String} {accepting : List String}
    {given : Option (List Char)} {edges : List Edge}
    (h : ofEdges initial accepting given edges = .ok d) :
    ∃ q, d.quotient? d.minimize = some q ∧
      (∀ text defn, Description.parse .dfa text = .ok defn → defn.automaton = .dfa d →
        q.names.Nodup) ∧
      (q.names.Nodup → ∀ w,
        q.run w = (d.run w).map (·.map d.minimize.classNameOf) ∧
          (∀ e, d.run w = .error e ↔ ∃ c, w.find? (fun c => !d.alphabet.contains c) = some c ∧
            e = .unknownSymbol c) ∧
          q.accepts w = d.accepts w) := by
  have hd := isComplete_of_ofEdges h
  have hnames := nodup_names_of_ofEdges h
  obtain ⟨q, hq⟩ : ∃ q, d.quotient? d.minimize = some q :=
    ⟨_, quotient?_eq_some_iff.mpr ⟨(isExact_minimize hd).names_eq, rfl⟩⟩
  refine ⟨q, hq, ?_, ?_⟩
  · intro text defn hparse hdefn
    exact nodup_names_quotient hd hnames hq (Description.isPlain_of_parse hparse hdefn)
  · intro hqnames w
    refine ⟨run_quotient hd hnames hq hqnames, ?_, accepts_quotient hd hnames hq hqnames⟩
    intro e
    exact run_eq_error_iff hd hnames

/-- A text that holds the automaton of parities. -/
def parityText : List Char :=
  ("name: parity\naccepting: odd\nrules:\neven:\na -> odd\nb -> again\n" ++
    "odd:\na -> again\nb -> odd\nagain:\na -> odd\nb -> even").toList

theorem parity_follows :
    Description.parse .dfa parityText = .ok ⟨"parity", [], .dfa parity⟩ ∧
      ∃ q, parity.quotient? parity.minimize = some q ∧ q.names = ["\x7beven,again\x7d", "odd"] ∧
        ∀ w, q.accepts w = parity.accepts w := by
  have hsome : (Description.parse .dfa parityText).toOption =
      some ⟨"parity", [], .dfa parity⟩ := by decide +kernel
  have hparse : Description.parse .dfa parityText = .ok ⟨"parity", [], .dfa parity⟩ := by
    cases hread : Description.parse .dfa parityText with
    | error fault => simp [hread, Except.toOption] at hsome
    | ok defn =>
      rw [hread] at hsome
      exact congrArg Except.ok (Option.some.inj hsome)
  have h : ofEdges "even" ["odd"] none parityEdges = .ok parity := rfl
  obtain ⟨q, hq, htext, hfollows⟩ := quotient_minimize_follows h
  have hnodup := htext parityText _ hparse rfl
  have hnames : (parity.quotient? parity.minimize).map names =
      some ["\x7beven,again\x7d", "odd"] := by decide +kernel
  rw [hq] at hnames
  exact ⟨hparse, q, hq, Option.some.inj hnames, fun w => (hfollows hnodup w).2.2⟩

end Dfa

end Acceptors
