import Acceptors.Defect
import Acceptors.Distinct
import Acceptors.Ordered
import Acceptors.Word

/-!
# Complete deterministic automata

An automaton is described by its edges. It is built only if its edges stay within the alphabet,
never disagree and leave no state without a target; then every state and symbol have exactly one
target. States are counted in order of first appearance, and a name stands for the first state
that bears it.

## Main definitions

* `Dfa`, `Dfa.State`, `Dfa.Edge`
* `Dfa.check`: the first defect of a list of edges
* `Dfa.ofEdges`: the automaton with the given edges, if they have no defect
* `Dfa.step?`, `Dfa.path`: runs on state numbers
* `Dfa.run`, `Dfa.accepts`: runs and acceptance on state names

## Main results

* `ofEdges_eq_ok_iff`: an automaton is built exactly if its edges have no defect
-/

namespace Acceptors

namespace Dfa

/-- An edge from one named state to another, on one symbol. -/
structure Edge where
  source : String
  symbol : Char
  target : String
  deriving DecidableEq, Repr

/-- A state: its name, whether it accepts, and its targets in the order of the alphabet. -/
structure State where
  name : String
  accepting : Bool
  targets : List Nat
  deriving DecidableEq, Repr

end Dfa

/-- A deterministic automaton with states counted from zero. -/
structure Dfa where
  alphabet : List Char
  states : List Dfa.State
  initial : Nat
  deriving DecidableEq, Repr

namespace Dfa

/-! ## Checking edges -/

section

variable (states : List String) (alphabet : List Char) (edges : List Edge)

/-- The first edge on a symbol outside the alphabet. -/
def strayEdge? : Option Edge := edges.find? fun e => !alphabet.contains e.symbol

/-- Whether the edges leave one state on one symbol towards different targets. -/
def Edge.disagrees (e f : Edge) : Bool :=
  e.source = f.source && e.symbol = f.symbol && e.target ≠ f.target

/-- The first edge that disagrees with an edge before it or with one of `earlier`. -/
def conflictAfter? (earlier : List Edge) : List Edge → Option Edge
  | [] => none
  | e :: es => if earlier.any e.disagrees then some e else conflictAfter? (e :: earlier) es

/-- The first edge that disagrees with an edge before it. -/
def conflict? : Option Edge := conflictAfter? [] edges

/-- The target named by the first edge from `state` on `symbol`. -/
def target? (state : String) (symbol : Char) : Option String :=
  (edges.find? fun e => e.source = state && e.symbol = symbol).map Edge.target

/-- The first state, and its first symbol, that no edge leaves. -/
def gap? : Option (String × Char) :=
  states.findSome? fun q =>
    (alphabet.find? fun c => (target? edges q c).isNone).map fun c => (q, c)

/-- The first defect of the edges: a symbol outside the alphabet, then a disagreement, then a
missing edge. -/
def check : Except Defect Unit :=
  match strayEdge? alphabet edges with
  | some e => .error (.symbolOutsideAlphabet e.source e.symbol)
  | none =>
    match conflict? edges with
    | some e => .error (.nondeterministic e.source e.symbol)
    | none =>
      match gap? states alphabet edges with
      | some (q, c) => .error (.missingTransition q c)
      | none => .ok ()

end

/-! ## Building an automaton -/

/-- The named states in order of first appearance: the initial state, then the edges, then the
accepting states. -/
def namesOf (initial : String) (accepting : List String) (edges : List Edge) : List String :=
  distinct (initial :: edges.flatMap (fun e => [e.source, e.target]) ++ accepting)

/-- The given symbols, or else those of the edges, in increasing order. -/
def alphabetOf (alphabet : Option (List Char)) (edges : List Edge) : List Char :=
  ascending (alphabet.getD (edges.map Edge.symbol))

/-- The automaton on the given states and symbols that has the given edges. -/
def onStates (names : List String) (accepting : List String) (symbols : List Char)
    (edges : List Edge) : Dfa where
  alphabet := symbols
  states := names.map fun q => {
    name := q
    accepting := accepting.contains q
    targets := symbols.filterMap fun c => (target? edges q c).map names.idxOf }
  initial := 0

/-- The automaton with the given edges, or their first defect. Without an alphabet, it is the set
of the symbols on the edges. -/
def ofEdges (initial : String) (accepting : List String) (alphabet : Option (List Char))
    (edges : List Edge) : Except Defect Dfa :=
  let names := namesOf initial accepting edges
  let symbols := alphabetOf alphabet edges
  (check names symbols edges).map fun _ => onStates names accepting symbols edges

theorem ofEdges_eq_ok_iff {initial : String} {accepting : List String}
    {alphabet : Option (List Char)} {edges : List Edge} {d : Dfa} :
    ofEdges initial accepting alphabet edges = .ok d ↔
      check (namesOf initial accepting edges) (alphabetOf alphabet edges) edges = .ok () ∧
        onStates (namesOf initial accepting edges) accepting (alphabetOf alphabet edges) edges =
          d := by
  simp only [ofEdges]
  cases check (namesOf initial accepting edges) (alphabetOf alphabet edges) edges <;>
    simp [Except.map]

/-! ## Looking up states -/

section

variable (d : Dfa)

/-- The names of the states, in order. -/
def names : List String := d.states.map State.name

/-- The name of the state of the given number. -/
def nameOf (s : Nat) : String := (d.names[s]?).getD ""

/-- The name of the initial state. -/
def initialName : String := d.nameOf d.initial

/-- The number of the first state of the given name. -/
def index? (name : String) : Option Nat := d.names.idxOf? name

/-- Whether the state of the given number accepts. -/
def acceptsAt (s : Nat) : Bool := (d.states[s]?).any State.accepting

/-- Whether the first state of the given name accepts. -/
def isAccepting (name : String) : Bool := (d.index? name).any d.acceptsAt

/-- The target of the state of the given number on `c`; nothing if `c` is outside the
alphabet. -/
def step? (s : Nat) (c : Char) : Option Nat := do
  let a ← d.alphabet.idxOf? c
  let q ← d.states[s]?
  q.targets[a]?

/-- The name of the target of the named state on `c`. -/
def next? (name : String) (c : Char) : Option String := do
  let s ← d.index? name
  let t ← d.step? s c
  return d.nameOf t

end

/-! ## Runs -/

/-- What stops a run. -/
inductive RunError where
  /-- No state bears the name. -/
  | unknownState (name : String)
  /-- The symbol is outside the alphabet. -/
  | unknownSymbol (symbol : Char)
  deriving DecidableEq, Repr

section

variable (d : Dfa)

/-- The states visited reading a word from the state `s` on, both ends included. -/
def path (s : Nat) : Word → Except RunError (List Nat)
  | [] => .ok [s]
  | c :: w =>
    match d.step? s c with
    | none => .error (.unknownSymbol c)
    | some t => (path t w).map (s :: ·)

/-- The names of the states visited reading a word from the named state on. -/
def runFrom (name : String) (w : Word) : Except RunError (List String) :=
  match d.index? name with
  | none => .error (.unknownState name)
  | some s => (d.path s w).map (·.map d.nameOf)

/-- The names of the states visited reading a word from the initial state on. -/
def run (w : Word) : Except RunError (List String) := d.runFrom d.initialName w

/-- Whether a run from the named state ends in an accepting state. -/
def acceptsFrom (name : String) (w : Word) : Bool :=
  match d.runFrom name w with
  | .error _ => false
  | .ok visited => visited.getLast?.any d.isAccepting

/-- Whether the automaton accepts the word. -/
def accepts (w : Word) : Bool := d.acceptsFrom d.initialName w

@[simp] theorem path_nil (s : Nat) : d.path s [] = .ok [s] := rfl

theorem path_cons (s : Nat) (c : Char) (w : Word) :
    d.path s (c :: w) = match d.step? s c with
      | none => .error (.unknownSymbol c)
      | some t => (d.path t w).map (s :: ·) := rfl

end

end Dfa

end Acceptors
