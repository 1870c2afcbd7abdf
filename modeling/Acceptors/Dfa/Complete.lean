import Acceptors.Dfa.Quotient

/-!
# Complete automata and the words that tell their states apart

An automaton that is built from edges is complete: its alphabet increases, every state has a target
for each symbol, and all targets are states. In a complete automaton a word over the alphabet leads
from each state to exactly one state.

## Main definitions

* `Dfa.IsComplete`
* `Dfa.stateAfter`: where a word leads
* `Dfa.TellsApart`: a word on which exactly one of two states accepts
* `Dfa.Equivalent`: no word tells two states apart

## Main results

* `stateAfter_append`: words one after the other
* `path_eq_ok`: a run visits the states after the prefixes of its word
* `isComplete_of_ofEdges`: what is built from edges is complete
-/

namespace Acceptors

namespace Dfa

section

variable (d : Dfa)

/-- The alphabet increases, and every state has a target for each symbol that is a state. -/
structure IsComplete : Prop where
  alphabet_increasing : d.alphabet.Pairwise (· < ·)
  initial_lt : d.initial < d.states.length
  length_targets : ∀ q ∈ d.states, q.targets.length = d.alphabet.length
  target_lt : ∀ q ∈ d.states, ∀ t ∈ q.targets, t < d.states.length

/-- The state that a word leads to from `s`; nothing if it leaves the alphabet. -/
def stateAfter (s : Nat) : Word → Option Nat
  | [] => some s
  | c :: w => (d.step? s c).bind fun t => stateAfter t w

/-- Whether a word leads from `s` to an accepting state. -/
def acceptsAfter (s : Nat) (w : Word) : Bool := (d.stateAfter s w).any d.acceptsAt

/-- Exactly one of two states accepts on the word. -/
def TellsApart (w : Word) (p q : Nat) : Prop := d.acceptsAfter p w ≠ d.acceptsAfter q w

/-- No word tells the two states apart. -/
def Equivalent (p q : Nat) : Prop := ∀ w, d.acceptsAfter p w = d.acceptsAfter q w

/-! ## Runs -/

@[simp] theorem stateAfter_nil (s : Nat) : d.stateAfter s [] = some s := rfl

theorem stateAfter_cons (s : Nat) (c : Char) (w : Word) :
    d.stateAfter s (c :: w) = (d.step? s c).bind fun t => d.stateAfter t w := rfl

theorem stateAfter_append (s : Nat) (u v : Word) :
    d.stateAfter s (u ++ v) = (d.stateAfter s u).bind fun t => d.stateAfter t v := by
  induction u generalizing s with
  | nil => rfl
  | cons c u ih =>
    rw [List.cons_append, stateAfter_cons, stateAfter_cons, Option.bind_assoc]
    exact congrArg _ (funext fun t => ih t)

@[simp] theorem acceptsAfter_nil (s : Nat) : d.acceptsAfter s [] = d.acceptsAt s := rfl

theorem acceptsAfter_cons (s : Nat) (c : Char) (w : Word) :
    d.acceptsAfter s (c :: w) = (d.step? s c).any fun t => d.acceptsAfter t w := by
  unfold acceptsAfter
  rw [stateAfter_cons]
  cases d.step? s c <;> rfl

/-- A run visits one state more than its word has symbols, and the word leads to the last one. -/
theorem path_eq_ok {s : Nat} {w : Word} {visited : List Nat} (h : d.path s w = .ok visited) :
    visited.length = w.length + 1 ∧ visited.getLast? = d.stateAfter s w := by
  induction w generalizing s visited with
  | nil =>
    obtain rfl : [s] = visited := Except.ok.inj h
    simp
  | cons c w ih =>
    rw [path_cons] at h
    cases ht : d.step? s c with
    | none => simp [ht] at h
    | some t =>
      rw [ht] at h
      cases hw : d.path t w with
      | error e => simp [hw, Except.map] at h
      | ok rest =>
        obtain ⟨hlen, hlast⟩ := ih hw
        obtain rfl : s :: rest = visited := by simpa [hw, Except.map] using h
        have hne : rest ≠ [] := fun he => by simp [he] at hlen
        refine ⟨by simp [hlen], ?_⟩
        rw [List.getLast?_cons_of_ne_nil hne, hlast, stateAfter_cons, ht]
        rfl

/-- A run fails exactly if its word leads nowhere. -/
theorem exists_path_iff {s : Nat} {w : Word} :
    (∃ visited, d.path s w = .ok visited) ↔ (d.stateAfter s w).isSome := by
  induction w generalizing s with
  | nil => simp
  | cons c w ih =>
    rw [path_cons, stateAfter_cons]
    cases d.step? s c with
    | none => simp
    | some t =>
      simp only [Option.bind_some, ← ih]
      constructor
      · rintro ⟨visited, h⟩
        cases hw : d.path t w with
        | error e => simp [hw, Except.map] at h
        | ok rest => exact ⟨rest, rfl⟩
      · rintro ⟨rest, h⟩
        exact ⟨s :: rest, by simp [h, Except.map]⟩

end

/-! ## What is built from edges is complete -/

section

variable {states : List String} {alphabet : List Char} {edges : List Edge}

theorem gap?_eq_none_iff :
    gap? states alphabet edges = none ↔
      ∀ q ∈ states, ∀ c ∈ alphabet, (target? edges q c).isSome := by
  simp [gap?, List.findSome?_eq_none_iff, Option.isSome_iff_ne_none]

theorem check_eq_ok_iff {u : Unit} :
    check states alphabet edges = .ok u ↔
      strayEdge? alphabet edges = none ∧ conflict? edges = none ∧
        gap? states alphabet edges = none := by
  unfold check
  cases strayEdge? alphabet edges <;> cases conflict? edges <;>
    cases gap? states alphabet edges <;> simp

theorem edge_of_target?_eq_some {q target : String} {c : Char}
    (h : target? edges q c = some target) : ⟨q, c, target⟩ ∈ edges := by
  obtain ⟨e, he, rfl⟩ := Option.map_eq_some_iff.mp h
  have hmem := List.mem_of_find?_eq_some he
  have hp := List.find?_some he
  simp only [Bool.and_eq_true, decide_eq_true_eq] at hp
  obtain ⟨rfl, rfl⟩ := hp
  exact hmem

theorem mem_namesOf {initial : String} {accepting : List String} {name : String} :
    name ∈ namesOf initial accepting edges ↔
      name = initial ∨ (∃ e ∈ edges, name = e.source ∨ name = e.target) ∨ name ∈ accepting := by
  simp [namesOf]

theorem target_mem_namesOf {initial : String} {accepting : List String} {e : Edge}
    (h : e ∈ edges) : e.target ∈ namesOf initial accepting edges :=
  mem_namesOf.mpr (.inr (.inl ⟨e, h, .inr rfl⟩))

theorem pairwise_alphabetOf (given : Option (List Char)) :
    (alphabetOf given edges).Pairwise (· < ·) := by
  refine pairwise_ascending (fun h k => Char.lt_trans h k) (fun a b => ?_) _
  by_cases h : a < b
  · exact .inl h
  · by_cases k : b < a
    · exact .inr (.inr k)
    · exact .inr (.inl (Char.le_antisymm (Char.not_lt.mp k) (Char.not_lt.mp h)))

/-- The automaton that is built from edges is complete. -/
theorem isComplete_of_ofEdges {initial : String} {accepting : List String}
    {given : Option (List Char)} {d : Dfa} (h : ofEdges initial accepting given edges = .ok d) :
    d.IsComplete := by
  -- the checks leave no gap, so a row of targets is as long as the alphabet
  obtain ⟨hcheck, rfl⟩ := ofEdges_eq_ok_iff.mp h
  have htarget := gap?_eq_none_iff.mp (check_eq_ok_iff.mp hcheck).2.2
  refine ⟨pairwise_alphabetOf given, by simp [onStates, namesOf, distinct], ?_, ?_⟩
  · intro q hq
    obtain ⟨name, hname, rfl⟩ := List.mem_map.mp hq
    exact List.filterMap_length_eq_length.mpr fun c hc => by simpa using htarget name hname c hc
  · intro q hq t ht
    obtain ⟨name, hname, rfl⟩ := List.mem_map.mp hq
    -- a target is named on an edge, and every name on an edge is a state
    obtain ⟨c, hc, hct⟩ := List.mem_filterMap.mp ht
    obtain ⟨target, htarget, rfl⟩ := Option.map_eq_some_iff.mp hct
    simpa [onStates] using
      List.idxOf_lt_length_iff.mpr (target_mem_namesOf (edge_of_target?_eq_some htarget))

end

end Dfa

end Acceptors
