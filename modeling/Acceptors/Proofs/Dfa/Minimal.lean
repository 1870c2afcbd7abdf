import Acceptors.Proofs.Dfa.Distinguish
import Acceptors.Proofs.Dfa.Quotient
import Acceptors.Proofs.Dfa.Reduced
import Mathlib.Computability.DFA
import Mathlib.Data.Fintype.Card

/-!
# Minimal quotients

In a reduced automaton words that lead to different states are told apart by what may follow them, so
any other automaton for the same words has to lead them to different states as well. If all states
are reached, it needs as many states. States that are never reached can be left out instead. The
quotient is reduced, and its states are reached if their classes have members that are reached, so it
is as small as possible exactly if every class has such a member.

## Main definitions

* `Dfa.Reachable`: states that some word leads to
* `Dfa.reachablePart`: an automaton on these states alone
* `Dfa.SameWords`: another automaton, on any states, that accepts the same words

## Main results

* `sameWords_reachablePart`: leaving out the other states changes no word
* `IsReduced.length_le_card`: no automaton for the same words has fewer states
* `IsReduced.forall_length_le_card_iff`: which reduced automata are as small as possible
* `quotient_minimal_iff`: which quotients are as small as possible
-/

namespace Acceptors

namespace Dfa

variable {d q : Dfa} {s : Nat} {w : Word}

/-- Some word leads from the initial state to the state. -/
def Reachable (d : Dfa) (s : Nat) : Prop := ∃ w, d.stateAfter d.initial w = some s

theorem Reachable.initial (d : Dfa) : d.Reachable d.initial := ⟨[], rfl⟩

theorem Reachable.step? (h : d.Reachable s) {c : Char} {t : Nat} (ht : d.step? s c = some t) :
    d.Reachable t := by
  obtain ⟨w, hw⟩ := h
  refine ⟨w ++ [c], ?_⟩
  rw [stateAfter_append, hw, Option.bind_some, stateAfter_cons, ht]
  rfl

/-- A word leads somewhere exactly if it stays within the alphabet. -/
theorem IsComplete.isSome_stateAfter_iff (hd : d.IsComplete) (hs : s < d.states.length) :
    (d.stateAfter s w).isSome ↔ ∀ c ∈ w, c ∈ d.alphabet := by
  induction w generalizing s with
  | nil => simp
  | cons c w ih =>
    rw [stateAfter_cons, List.forall_mem_cons, ← hd.isSome_step?_iff hs]
    cases ht : d.step? s c with
    | none => simp
    | some t => simpa using ih (hd.step?_lt ht)

/-! ## The states that are reached -/

/-- The automaton on the states that are reached. -/
def reachablePart (d : Dfa) (hd : d.IsComplete) :
    DFA {c // c ∈ d.alphabet} {s : Fin d.states.length // d.Reachable s} where
  step s c :=
    have h : (d.step? s.1 c.1).isSome := (hd.isSome_step?_iff s.1.2).mpr c.2
    have ht : d.step? s.1 c.1 = some ((d.step? s.1 c.1).get h) := (Option.some_get h).symm
    ⟨⟨(d.step? s.1 c.1).get h, hd.step?_lt ht⟩, s.2.step? ht⟩
  start := ⟨⟨d.initial, hd.initial_lt⟩, .initial d⟩
  accept := {s | d.acceptsAt s.1}

theorem stateAfter_evalFrom (hd : d.IsComplete) (w : List {c // c ∈ d.alphabet})
    (s : {s : Fin d.states.length // d.Reachable s}) :
    d.stateAfter s.1 (w.map Subtype.val) =
      some ((d.reachablePart hd).evalFrom s w).1.1 := by
  induction w generalizing s with
  | nil => rfl
  | cons c w ih =>
    have h : (d.step? s.1 c.1).isSome := (hd.isSome_step?_iff s.1.2).mpr c.2
    rw [List.map_cons, stateAfter_cons, DFA.evalFrom_cons, ← ih, ← Option.some_get h]
    rfl

/-! ## Automata for the same words -/

section

variable {σ : Type} {M : DFA {c // c ∈ d.alphabet} σ}

/-- Another automaton over the same alphabet accepts the same words. -/
def SameWords (d : Dfa) {σ : Type} (M : DFA {c // c ∈ d.alphabet} σ) : Prop :=
  ∀ w, w ∈ M.accepts ↔ d.acceptsAfter d.initial (w.map Subtype.val) = true

/-- The states that are not reached play no part in what is accepted. -/
theorem sameWords_reachablePart (hd : d.IsComplete) : d.SameWords (d.reachablePart hd) := by
  intro w
  have hafter := stateAfter_evalFrom hd w (d.reachablePart hd).start
  change d.stateAfter d.initial _ = _ at hafter
  rw [DFA.mem_accepts, acceptsAfter, hafter]
  rfl

/-- Words that another automaton for the same words leads to one state lead to equivalent states. -/
theorem SameWords.equivalent (hM : d.SameWords M) (hd : d.IsComplete)
    {u v : List {c // c ∈ d.alphabet}} {s r : Nat}
    (hu : d.stateAfter d.initial (u.map Subtype.val) = some s)
    (hv : d.stateAfter d.initial (v.map Subtype.val) = some r) (heval : M.eval u = M.eval v) :
    d.Equivalent s r := by
  have hs := hd.stateAfter_lt hd.initial_lt hu
  have hr := hd.stateAfter_lt hd.initial_lt hv
  intro w
  by_cases hw : ∀ c ∈ w, c ∈ d.alphabet
  · lift w to List {c // c ∈ d.alphabet} using hw
    -- the state after a word tells which words over the alphabet may follow it
    have hfollow : ∀ {u : List {c // c ∈ d.alphabet}} {s : Nat},
        d.stateAfter d.initial (u.map Subtype.val) = some s →
          (d.acceptsAfter s (w.map Subtype.val) = true ↔ M.evalFrom (M.eval u) w ∈ M.accept) := by
      intro u s hu
      rw [DFA.eval, ← DFA.evalFrom_of_append, ← DFA.eval, ← DFA.mem_accepts, hM _, List.map_append,
        acceptsAfter, acceptsAfter, stateAfter_append, hu, Option.bind_some]
    rw [Bool.eq_iff_iff, hfollow hu, hfollow hv, heval]
  · -- outside the alphabet both states reject
    have hnone : ∀ {t : Nat}, t < d.states.length → d.acceptsAfter t w = false := by
      intro t ht
      rw [← hd.isSome_stateAfter_iff ht, Option.not_isSome_iff_eq_none] at hw
      rw [acceptsAfter, hw, Option.any_none]
    rw [hnone hs, hnone hr]

/-- A reduced automaton whose states are all reached has as few states as possible. -/
theorem IsReduced.length_le_card [Fintype σ] (h : d.IsReduced) (hd : d.IsComplete)
    (hreach : ∀ s < d.states.length, d.Reachable s) (hM : d.SameWords M) :
    d.states.length ≤ Fintype.card σ := by
  -- each state is reached by a word of its own, and no two of these words share a state of `M`
  have hword : ∀ s : Fin d.states.length, ∃ w : List {c // c ∈ d.alphabet},
      d.stateAfter d.initial (w.map Subtype.val) = some s.1 := by
    intro s
    obtain ⟨w, hw⟩ := hreach s s.2
    have hmem : ∀ c ∈ w, c ∈ d.alphabet :=
      (hd.isSome_stateAfter_iff hd.initial_lt).mp (Option.isSome_of_eq_some hw)
    lift w to List {c // c ∈ d.alphabet} using hmem
    exact ⟨w, hw⟩
  choose word hword using hword
  have hinj : Function.Injective fun s => M.eval (word s) := by
    intro s r heval
    exact Fin.ext (h s r s.2 r.2 (hM.equivalent hd (hword s) (hword r) heval))
  simpa using Fintype.card_le_of_injective _ hinj

end

/-- A reduced automaton has as few states as possible exactly if all its states are reached. -/
theorem IsReduced.forall_length_le_card_iff (h : d.IsReduced) (hd : d.IsComplete) :
    (∀ (σ : Type) [Fintype σ] (M : DFA {c // c ∈ d.alphabet} σ), d.SameWords M →
        d.states.length ≤ Fintype.card σ) ↔
      ∀ s < d.states.length, d.Reachable s := by
  classical
  constructor
  · intro hleast s hs
    by_contra hreach
    -- the automaton without the states that are not reached is smaller
    have hlt : Fintype.card {s : Fin d.states.length // d.Reachable s} <
        Fintype.card (Fin d.states.length) :=
      Fintype.card_subtype_lt (show ¬ d.Reachable (⟨s, hs⟩ : Fin d.states.length) from hreach)
    rw [Fintype.card_fin] at hlt
    exact Nat.not_lt.mpr (hleast _ (d.reachablePart hd) (sameWords_reachablePart hd)) hlt
  · intro hreach σ _ M hM
    exact h.length_le_card hd hreach hM

/-! ## Reachable classes -/

theorem SimulatedBy.stateAfter_eq {f : Nat → Nat} (h : d.SimulatedBy q f) (hd : d.IsComplete)
    (hs : s < d.states.length) : q.stateAfter (f s) w = (d.stateAfter s w).map f := by
  induction w generalizing s with
  | nil => rfl
  | cons c w ih =>
    rw [stateAfter_cons, stateAfter_cons, h.step?_eq hs]
    cases ht : d.step? s c with
    | none => rfl
    | some t => exact ih (hd.step?_lt ht)

/-- A state of the quotient is reached exactly if a member of its class is. -/
theorem reachable_quotient_iff (hd : d.IsComplete) (hq : d.quotient? d.minimize = some q) {i : Nat}
    {P : List Nat} (hP : d.minimize.classIndices[i]? = some P) :
    q.Reachable i ↔ ∃ s ∈ P, d.Reachable s := by
  have hpart := isPartition_classIndices hd
  have hsim := simulatedBy_quotient hd hq
  have hafter : ∀ w, q.stateAfter q.initial w =
      (d.stateAfter d.initial w).map (classOf d.minimize.classIndices) := by
    intro w
    rw [hsim.initial_eq, hsim.stateAfter_eq hd hd.initial_lt]
  constructor
  · rintro ⟨w, hw⟩
    rw [hafter] at hw
    obtain ⟨s, hs, rfl⟩ := Option.map_eq_some_iff.mp hw
    have hmem := List.mem_range.mpr (hd.stateAfter_lt hd.initial_lt hs)
    obtain ⟨Q, hQ, hsQ⟩ := hpart.exists_getElem?_classOf hmem
    obtain rfl : Q = P := Option.some.inj (hQ.symm.trans hP)
    exact ⟨s, hsQ, w, hs⟩
  · rintro ⟨s, hsP, w, hw⟩
    exact ⟨w, by rw [hafter, hw, Option.map_some, hpart.classOf_eq hP hsP]⟩

theorem forall_reachable_quotient_iff (hd : d.IsComplete)
    (hq : d.quotient? d.minimize = some q) :
    (∀ i < q.states.length, q.Reachable i) ↔
      ∀ P ∈ d.minimize.classIndices, ∃ s ∈ P, d.Reachable s := by
  have hlength := length_states_quotient hq
  constructor
  · intro h P hP
    obtain ⟨i, hi, rfl⟩ := List.mem_iff_getElem.mp hP
    exact (reachable_quotient_iff hd hq (List.getElem?_eq_getElem hi)).mp (h i (hlength ▸ hi))
  · intro h i hi
    rw [hlength] at hi
    exact (reachable_quotient_iff hd hq (List.getElem?_eq_getElem hi)).mpr
      (h _ (List.getElem_mem hi))

/-- **When the quotient is as small as possible.** No complete automaton over the same alphabet that
accepts the same words has fewer states than the quotient exactly if every class has a member that
is reached from the initial state. -/
theorem quotient_minimal_iff {initial : String} {accepting : List String}
    {given : Option (List Char)} {edges : List Edge}
    (h : ofEdges initial accepting given edges = .ok d) :
    ∃ q, d.quotient? d.minimize = some q ∧
      ((∀ (σ : Type) [Fintype σ] (M : DFA {c // c ∈ d.alphabet} σ),
          (∀ w, w ∈ M.accepts ↔ d.accepts (w.map Subtype.val) = true) →
            q.states.length ≤ Fintype.card σ) ↔
        ∀ P ∈ d.minimize.classIndices, ∃ s ∈ P, d.Reachable s) := by
  have hd := isComplete_of_ofEdges h
  have hnames := nodup_names_of_ofEdges h
  obtain ⟨q, hq⟩ := exists_quotient hd
  refine ⟨q, hq, ?_⟩
  have hsim := simulatedBy_quotient hd hq
  have hwords : ∀ w, q.acceptsAfter q.initial w = d.accepts w := by
    intro w
    rw [accepts_eq hd hnames, hsim.initial_eq, hsim.acceptsAfter_eq hd hd.initial_lt]
  have hleast := (isReduced_quotient hd hq).forall_length_le_card_iff (isComplete_quotient hd hq)
  simp only [SameWords, hwords] at hleast
  rw [alphabet_quotient hq, forall_reachable_quotient_iff hd hq] at hleast
  exact hleast

/-- An accepting state that no edge leads to. -/
def strandedEdges : List Edge := [⟨"start", 'a', "start"⟩, ⟨"stranded", 'a', "start"⟩]

/-- The automaton with these edges, which accepts nothing. -/
def stranded : Dfa := onStates ["start", "stranded"] ["stranded"] ['a'] strandedEdges

theorem eq_zero_of_reachable_stranded (h : stranded.Reachable s) : s = 0 := by
  obtain ⟨w, hw⟩ := h
  change stranded.stateAfter 0 w = some s at hw
  induction w with
  | nil => exact (Option.some.inj hw).symm
  | cons c w ih =>
    obtain ⟨t, ht, hw⟩ := Option.bind_eq_some_iff.mp hw
    obtain ⟨a, q, ha, hq, hget⟩ := step?_eq_some_iff.mp ht
    obtain rfl : ⟨"start", false, [0]⟩ = q := Option.some.inj hq
    have hmem := List.mem_of_getElem? hget
    obtain rfl : t = 0 := List.mem_singleton.mp hmem
    exact ih hw

/-- No automaton for the words with an odd number of `a` has fewer than two states. The quotient of
an automaton with a stranded state has a state too many. -/
theorem parity_minimal_stranded_not :
    (ofEdges "even" ["odd"] none parityEdges = .ok parity ∧
      ∀ (σ : Type) [Fintype σ] (M : DFA {c // c ∈ parity.alphabet} σ),
        (∀ w, w ∈ M.accepts ↔ parity.accepts (w.map Subtype.val) = true) →
          2 ≤ Fintype.card σ) ∧
    (ofEdges "start" ["stranded"] none strandedEdges = .ok stranded ∧
      ∃ (σ : Type) (_ : Fintype σ) (M : DFA {c // c ∈ stranded.alphabet} σ),
        (∀ w, w ∈ M.accepts ↔ stranded.accepts (w.map Subtype.val) = true) ∧
          Fintype.card σ < 2) := by
  have h : ofEdges "even" ["odd"] none parityEdges = .ok parity := rfl
  have h' : ofEdges "start" ["stranded"] none strandedEdges = .ok stranded := rfl
  refine ⟨⟨h, ?_⟩, h', ?_⟩
  · obtain ⟨q, hq, hminimal⟩ := quotient_minimal_iff h
    have hclasses : parity.minimize.classIndices = [[0, 2], [1]] := by decide +kernel
    rw [length_states_quotient hq, hclasses] at hminimal
    refine hminimal.mpr fun P hP => ?_
    rcases List.mem_pair.mp hP with rfl | rfl
    · exact ⟨0, by simp, [], rfl⟩
    · exact ⟨1, by simp, ['a'], rfl⟩
  · obtain ⟨q, hq, hminimal⟩ := quotient_minimal_iff h'
    have hclasses : stranded.minimize.classIndices = [[0], [1]] := by decide +kernel
    rw [length_states_quotient hq, hclasses] at hminimal
    by_contra hnone
    -- otherwise the class of the stranded state would be reached
    obtain ⟨s, hs, hreach⟩ := hminimal.mp (fun σ _ M hM => by
      by_contra hlt
      exact hnone ⟨σ, _, M, hM, Nat.lt_of_not_le hlt⟩) [1] (by simp)
    have hone := List.mem_singleton.mp hs
    rw [eq_zero_of_reachable_stranded hreach] at hone
    cases hone

end Dfa

end Acceptors
