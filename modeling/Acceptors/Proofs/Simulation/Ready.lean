import Acceptors.Proofs.Description.Assembly
import Acceptors.Proofs.Dfa.Names
import Acceptors.Proofs.Goto.Budget
import Acceptors.Proofs.Goto.Literal
import Acceptors.Proofs.Grammar.Membership
import Acceptors.Samples
import Acceptors.Simulation.Basic

/-!
# Descriptions that load are ready to run

A text that holds a definition has passed the check of what it describes. Whatever the check could
have found wrong cannot be met by a run: a grammar has its chart, the states of an automaton are
there under their names, and a program knows all labels that it goes to. What is left is that the
input of a program may be no number, and that a machine may have more tapes than there is room for:
the check of a machine bounds the number of its tapes from below only.

## Main definitions

* `Automaton.IsReady`: what the check of each kind leaves
* `Automaton.HasRoom`: there is room for the tapes of a machine

## Main results

* `isReady_of_parse`: what a text holds is ready
* `IsReady.exists_verdict`, `IsConsistent.exists_verdict`: what is ready decides words
* `simulate_of_parse`: what a text holds decides words, exactly if there is room for its tapes
* `countless_tapes_crash`: a machine without transitions that loads and decides no word
-/

namespace Acceptors

/-! ## What the checks leave -/

/-- Nothing is left to be found wrong with the automaton. -/
def Automaton.IsReady : Automaton → Prop
  | grammar g => g.IsNormal
  | machine m => m.IsFitted
  | dfa d => d.IsComplete ∧ d.names.Nodup
  | goto p => p.IsConsistent

/-- There is room for the tapes of the automaton, if it is a machine. -/
def Automaton.HasRoom : Automaton → Prop
  | machine m => m.HasRoom
  | _ => True

/-! ## What loading leaves -/

namespace Description

section

variable {l : List (Located Section)} {name : String}

theorem isNormal_of_grammarOf {g : Grammar} (h : grammarOf l = .ok (name, g)) : g.IsNormal := by
  iterate 4 obtain ⟨_, -, h⟩ := bind_eq_ok_iff.mp h
  obtain ⟨_, hcheck, h⟩ := bind_eq_ok_iff.mp h
  obtain ⟨-, rfl⟩ := Prod.mk.inj (Except.ok.inj h)
  exact Grammar.check_eq_ok_iff.mp (mapError_eq_ok_iff.mp hcheck)

theorem isFitted_of_machineOf {m : Machine} (h : machineOf l = .ok (name, m)) : m.IsFitted := by
  iterate 7 obtain ⟨_, -, h⟩ := bind_eq_ok_iff.mp h
  obtain ⟨_, hm, h⟩ := bind_eq_ok_iff.mp h
  obtain ⟨-, rfl⟩ := Prod.mk.inj (Except.ok.inj h)
  exact Machine.isFitted_of_ofRules (mapError_eq_ok_iff.mp hm)

theorem isComplete_of_dfaOf {d : Dfa} (h : dfaOf l = .ok (name, d)) :
    d.IsComplete ∧ d.names.Nodup := by
  iterate 5 obtain ⟨_, -, h⟩ := bind_eq_ok_iff.mp h
  obtain ⟨_, hd, h⟩ := bind_eq_ok_iff.mp h
  obtain ⟨-, rfl⟩ := Prod.mk.inj (Except.ok.inj h)
  have hedges := mapError_eq_ok_iff.mp hd
  exact ⟨Dfa.isComplete_of_ofEdges hedges, Dfa.nodup_names_of_ofEdges hedges⟩

theorem isConsistent_of_startedAt {p q : Goto.Program} {start : Option String}
    (hp : p.IsConsistent) (h : startedAt p start = .ok q) : q.IsConsistent := by
  cases start with
  | none =>
    obtain rfl : p = q := Except.ok.inj h
    exact hp
  | some label => exact Goto.Program.isConsistent_of_startingAt h

theorem isConsistent_of_programOf {p : Goto.Program} (h : programOf l = .ok (name, p)) :
    p.IsConsistent := by
  iterate 5 obtain ⟨_, -, h⟩ := bind_eq_ok_iff.mp h
  obtain ⟨_, hplain, h⟩ := bind_eq_ok_iff.mp h
  obtain ⟨_, hstarted, h⟩ := bind_eq_ok_iff.mp h
  obtain ⟨-, rfl⟩ := Prod.mk.inj (Except.ok.inj h)
  -- the check is made again when the start label is set
  have hp := Goto.Program.isConsistent_of_ofStatements (mapError_eq_ok_iff.mp hplain)
  exact isConsistent_of_startedAt hp (mapError_eq_ok_iff.mp hstarted)

end

/-- What a text holds is ready, and of the kind that was asked for. -/
theorem isReady_of_parse {kind : Kind} {text : List Char} {defn : Definition}
    (h : parse kind text = .ok defn) : defn.automaton.IsReady ∧ defn.kind = kind := by
  cases kind with
  | grammar =>
    obtain ⟨_, _, g, -, -, hg, rfl⟩ := parseWith_eq_ok_iff.mp h
    exact ⟨isNormal_of_grammarOf hg, rfl⟩
  | machine =>
    obtain ⟨_, _, m, -, -, hm, rfl⟩ := parseWith_eq_ok_iff.mp h
    exact ⟨isFitted_of_machineOf hm, rfl⟩
  | dfa =>
    obtain ⟨_, _, d, -, -, hd, rfl⟩ := parseWith_eq_ok_iff.mp h
    exact ⟨isComplete_of_dfaOf hd, rfl⟩
  | goto =>
    obtain ⟨_, _, p, -, -, hp, rfl⟩ := parseWith_eq_ok_iff.mp h
    exact ⟨isConsistent_of_programOf hp, rfl⟩

end Description

/-! ## What is ready decides words -/

section

variable {w : Word} {limit : Option Nat}

theorem Grammar.IsNormal.exists_verdict {g : Grammar} (h : g.IsNormal) (w : Word) :
    ∃ v, (g.simulate w).result = .ok v := by
  have hr : g.indexed = .ok g.ruleIndex := indexed_eq_ok_iff.mpr ⟨h, rfl⟩
  exact ⟨_, by rw [simulate, hr]⟩

theorem Dfa.IsComplete.exists_verdict {d : Dfa} (h : d.IsComplete) (hnames : d.names.Nodup)
    (w : Word) : ∃ v, (d.simulate w).result = .ok v := by
  have hrun : d.run w = (d.path d.initial w).map (·.map d.nameOf) :=
    runFrom_nameOf hnames h.initial_lt
  cases hpath : d.path d.initial w with
  | ok states => exact ⟨_, by rw [simulate, hrun, hpath]; rfl⟩
  | error e =>
    -- a run that starts in a state stops at a symbol only
    obtain ⟨c, -, rfl⟩ := (h.path_eq_error_iff h.initial_lt).mp hpath
    exact ⟨_, by rw [simulate, hrun, hpath]; rfl⟩

/-- A consistent program decides every input, and never goes to a label that is not there. -/
theorem Goto.Program.IsConsistent.exists_verdict {p : Goto.Program} (h : p.IsConsistent)
    (hw : Goto.IsInput w) :
    ∃ v, (p.simulate w limit).result = .ok v ∧
      ∀ label, v.evidence ≠ .failure (.unknownLabel label) := by
  obtain ⟨n, hn⟩ := hw
  rw [← Goto.input?_eq_some_iff_literal] at hn
  cases hrun : (p.run n (limit.getD Goto.defaultBudget)).result with
  | ok e =>
    refine ⟨⟨w, true, .value e.output e.vars⟩, by simp [simulate, hn, hrun], fun label hv => ?_⟩
    cases hv
  | error f =>
    refine ⟨⟨w, false, .failure f⟩, by simp [simulate, hn, hrun], fun label hf => ?_⟩
    obtain rfl : f = .unknownLabel label := Evidence.failure.inj hf
    exact h.run_ne_unknownLabel n _ label hrun

/-- A program refuses a word that is no input. -/
theorem Goto.Program.simulate_of_not_isInput {p : Goto.Program} (hw : ¬ Goto.IsInput w) :
    (p.simulate w limit).result = .error (.notAnInteger w) := by
  rw [simulate, Goto.input?_eq_none_iff.mpr hw]

/-- A machine with a bound decides words exactly if there is room for its tapes. -/
theorem Machine.exists_verdict_iff (m : Machine) (w : Word) (bound : Nat) :
    ∃ s, m.simulate w (some bound) = some s ∧ ((∃ v, s.result = .ok v) ↔ m.HasRoom) := by
  by_cases hroom : m.HasRoom
  · exact ⟨_, simulate_of_hasRoom w hroom _, iff_of_true ⟨_, rfl⟩ hroom⟩
  · exact ⟨_, simulate_of_not_hasRoom w hroom _, iff_of_false (by simp) hroom⟩

/-- A grammar, an automaton, or a machine with a bound decides every word, exactly if there is room
for its tapes. -/
theorem Automaton.IsReady.exists_verdict {a : Automaton} (h : a.IsReady) (hkind : a.kind ≠ .goto)
    (hlimit : a.kind = .machine → limit.isSome) (w : Word) :
    ∃ s, a.simulate w limit = some s ∧ ((∃ v, s.result = .ok v) ↔ a.HasRoom) := by
  cases a with
  | grammar g => exact ⟨_, rfl, iff_of_true (Grammar.IsNormal.exists_verdict h w) trivial⟩
  | machine m =>
    obtain ⟨bound, rfl⟩ := Option.isSome_iff_exists.mp (hlimit rfl)
    exact m.exists_verdict_iff w bound
  | dfa d => exact ⟨_, rfl, iff_of_true (Dfa.IsComplete.exists_verdict h.1 h.2 w) trivial⟩
  | goto p => exact absurd rfl hkind

/-- Without room for its tapes a machine crashes before it visits a configuration. -/
theorem Automaton.simulate_of_not_hasRoom {a : Automaton} (h : ¬ a.HasRoom) (w : Word)
    (limit : Option Nat) :
    ∃ m, a = .machine m ∧ a.simulate w limit = some ⟨[], .error (.tooManyTapes m.tapeCount)⟩ := by
  cases a with
  | machine m => exact ⟨m, rfl, Machine.simulate_of_not_hasRoom w h limit⟩
  | _ => exact absurd trivial h

end

/-- **A description that loads is ready to run if there is room for its tapes.** A grammar, a
deterministic automaton, or a machine with a bound gives a verdict on every word, except for a
machine whose tapes do not fit into memory: it crashes on every word, before it visits a
configuration. A program gives a verdict on every word that is an integer in range, and the verdict
is never that a label is missing. Any other word it refuses as no integer. -/
theorem Description.simulate_of_parse {kind : Kind} {text : List Char} {defn : Definition}
    (h : parse kind text = .ok defn) (w : Word) (limit : Option Nat)
    (hlimit : defn.kind = .machine → limit.isSome) :
    ∃ s, defn.automaton.simulate w limit = some s ∧
      (defn.kind ≠ .goto → ((∃ v, s.result = .ok v) ↔ defn.automaton.HasRoom)) ∧
      (¬ defn.automaton.HasRoom →
        ∃ m, defn.automaton = .machine m ∧ s = ⟨[], .error (.tooManyTapes m.tapeCount)⟩) ∧
      (defn.kind = .goto →
        (Goto.IsInput w → ∃ v, s.result = .ok v ∧
          ∀ label, v.evidence ≠ .failure (.unknownLabel label)) ∧
        (¬ Goto.IsInput w → s.result = .error (.notAnInteger w))) := by
  obtain ⟨hready, -⟩ := isReady_of_parse h
  by_cases hkind : defn.kind = .goto
  · obtain ⟨name, checks, automaton⟩ := defn
    cases automaton with
    | goto p =>
      refine ⟨_, rfl, fun hne => absurd rfl hne, fun hroom => absurd trivial hroom,
        fun _ => ⟨fun hw => ?_, fun hw => ?_⟩⟩
      · exact Goto.Program.IsConsistent.exists_verdict hready hw
      · exact Goto.Program.simulate_of_not_isInput hw
    | _ => cases hkind
  · obtain ⟨s, hs, hverdict⟩ := hready.exists_verdict hkind hlimit w
    refine ⟨s, hs, fun _ => hverdict, fun hroom => ?_, fun hgoto => absurd hgoto hkind⟩
    obtain ⟨m, hm, hcrash⟩ := Automaton.simulate_of_not_hasRoom hroom w limit
    exact ⟨m, hm, Option.some.inj (hs.symm.trans hcrash)⟩

theorem Description.popcount_decides :
    ∃ defn, parse .goto Sample.popcount.text = .ok defn ∧
      (defn.kind = .machine → (none : Option Nat).isSome) ∧
        ∃ s, defn.automaton.simulate [' ', '+', '7'] none = some s ∧
          ∃ v, s.result = .ok v ∧ ∀ label, v.evidence ≠ .failure (.unknownLabel label) := by
  obtain ⟨defn, hparse, hkind⟩ :
      ∃ defn, parse .goto Sample.popcount.text = .ok defn ∧ defn.kind = .goto := ⟨_, rfl, rfl⟩
  have hlimit : defn.kind = .machine → (none : Option Nat).isSome := by
    intro hmachine
    rw [hkind] at hmachine
    cases hmachine
  have hw : Goto.IsInput [' ', '+', '7'] := ⟨7, .plus (by simp) (by simp), by decide⟩
  obtain ⟨s, hs, -, -, hgoto⟩ := simulate_of_parse hparse [' ', '+', '7'] none hlimit
  exact ⟨defn, hparse, hlimit, s, hs, (hgoto hkind).1 hw⟩

/-- A machine without transitions, all of whose runs would stop in the initial state, with more
tapes than there is room for. It loads, and crashes on the empty word with a bound of one visit. -/
theorem Description.countless_tapes_crash :
    ∃ defn, parse .machine
        "name: x\ntapes: 18446744073709551615\naccepting: q\nrules:\np:".toList = .ok defn ∧
      defn.kind = .machine ∧
        defn.automaton.simulate [] (some 1) =
          some ⟨[], .error (.tooManyTapes 18446744073709551615)⟩ :=
  ⟨_, rfl, rfl, rfl⟩

end Acceptors
