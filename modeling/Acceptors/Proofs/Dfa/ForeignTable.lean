import Acceptors.Proofs.Dfa.Distinguish
import Acceptors.Proofs.Dfa.Quotient

/-!
# Tables of other automata

A table knows the states it was made for by their names only, so the table of another automaton with
the same names is taken. Its classes need not be closed under the edges. They do no harm if they only
join equivalent states: the first member of a class then stands for the others, and the quotient
accepts the words that the automaton accepts. Otherwise the quotient may accept other words.

## Main results

* `IsPartition.acceptsAfter_quotient`: merging equivalent states by any table
* `quotient_by_other_table`: which tables are refused, and which are harmless
* `quotient_by_other_table_rejects`: a table of the same names that does harm
-/

namespace Acceptors

namespace Dfa

variable {d o q : Dfa} {t : Table}

/-! ## Merging equivalent states -/

/-- If the classes only join equivalent states, the class of a state accepts what the state accepts. -/
theorem IsPartition.acceptsAfter_quotient
    (h : o.IsPartition t.classIndices (List.range d.states.length)) (hd : d.IsComplete)
    (hq : d.quotient? t = some q)
    (hequiv : ∀ r s, r < d.states.length → s < d.states.length → o.Equivalent r s →
      d.Equivalent r s)
    {s : Nat} (hs : s < d.states.length) (w : Word) :
    q.acceptsAfter (classOf t.classIndices s) w = d.acceptsAfter s w := by
  induction w generalizing s with
  | nil =>
    obtain ⟨r, P, hr, heq, hget⟩ := h.exists_mergedState hq hs
    rw [acceptsAfter_nil, acceptsAt, hget]
    exact hequiv r s hr hs heq []
  | cons c w ih =>
    obtain ⟨r, P, hr, heq, hget⟩ := h.exists_mergedState hq hs
    -- the class moves as its first member, which is equivalent to the state
    rw [← hequiv r s hr hs heq (c :: w), acceptsAfter_cons, acceptsAfter_cons,
      step?_of_mergedState (alphabet_quotient hq) hr hget]
    cases ht : d.step? r c with
    | none => rfl
    | some p => exact ih (hd.step?_lt ht)

/-! ## Tables of the same names -/

/-- **Which tables a quotient takes.** The table of another automaton is refused exactly if it lists
other names. If it is taken and every two states that it leaves together are equivalent, the
quotient accepts the words that the automaton accepts, as long as its classes bear different
names. -/
theorem quotient_by_other_table {initial initial' : String} {accepting accepting' : List String}
    {given given' : Option (List Char)} {edges edges' : List Edge}
    (h : ofEdges initial accepting given edges = .ok d)
    (h' : ofEdges initial' accepting' given' edges' = .ok o) :
    (d.quotient? o.minimize = none ↔ o.names ≠ d.names) ∧
      ∀ q, d.quotient? o.minimize = some q → q.names.Nodup →
        (∀ p ∈ d.names, ∀ r ∈ d.names, o.minimize.isDistinguished p r = false →
          ∀ w, d.acceptsFrom p w = d.acceptsFrom r w) →
        ∀ w, q.accepts w = d.accepts w := by
  have hd := isComplete_of_ofEdges h
  have ho := isComplete_of_ofEdges h'
  have hdnames := nodup_names_of_ofEdges h
  have honames := nodup_names_of_ofEdges h'
  refine ⟨by rw [quotient?_eq_none_iff, (isExact_minimize ho).names_eq], ?_⟩
  intro q hq hqnames hharmless w
  have hsame : o.names = d.names := by
    rw [← (quotient?_eq_some_iff.mp hq).1, (isExact_minimize ho).names_eq]
  have hlength : o.states.length = d.states.length := by
    rw [← length_names, ← length_names, hsame]
  have hnameOf : ∀ s, o.nameOf s = d.nameOf s := fun s => by rw [nameOf, nameOf, hsame]
  have hpart : o.IsPartition o.minimize.classIndices (List.range d.states.length) := by
    rw [← hlength]
    exact isPartition_classIndices ho
  -- states that the other automaton does not tell apart are equivalent in this one
  have hequiv : ∀ r s, r < d.states.length → s < d.states.length → o.Equivalent r s →
      d.Equivalent r s := by
    intro r s hr hs heq
    rw [← hlength] at hr hs
    have hfalse := (isDistinguished_nameOf_eq_false_iff ho honames hr hs).mpr heq
    rw [hlength] at hr hs
    rw [hnameOf, hnameOf] at hfalse
    rw [equivalent_iff_acceptsFrom hd hdnames hr hs]
    exact hharmless _ (nameOf_mem hr) _ (nameOf_mem hs) hfalse
  rw [accepts_eq (hpart.isComplete_quotient hd hq) hqnames, accepts_eq hd hdnames,
    initial_quotient hq, hpart.acceptsAfter_quotient hd hq hequiv hd.initial_lt]

/-- The automaton of parities with its accepting states exchanged for the others. -/
def evenParity : Dfa := onStates ["even", "odd", "again"] ["even", "again"] ['a', 'b'] parityEdges

/-- An automaton and the one for the other words have one table. -/
theorem parity_merged_by_complement :
    ofEdges "even" ["odd"] none parityEdges = .ok parity ∧
      ofEdges "even" ["even", "again"] none parityEdges = .ok evenParity ∧
        ∃ q, parity.quotient? evenParity.minimize = some q ∧
          q.names = ["\x7beven,again\x7d", "odd"] ∧ ∀ w, q.accepts w = parity.accepts w := by
  have h : ofEdges "even" ["odd"] none parityEdges = .ok parity := rfl
  have h' : ofEdges "even" ["even", "again"] none parityEdges = .ok evenParity := rfl
  have hd := isComplete_of_ofEdges h
  have hnames := nodup_names_of_ofEdges h
  have htable : evenParity.minimize = parity.minimize := by decide +kernel
  have hquotient : (parity.quotient? evenParity.minimize).map names =
      some ["\x7beven,again\x7d", "odd"] := by decide +kernel
  obtain ⟨q, hq, hqnames⟩ := Option.map_eq_some_iff.mp hquotient
  refine ⟨h, h', q, hq, hqnames, ?_⟩
  apply (quotient_by_other_table h h').2 q hq (by rw [hqnames]; decide)
  intro p hp r hr hfalse
  obtain ⟨i, hi, rfl⟩ := exists_nameOf_eq hp
  obtain ⟨j, hj, rfl⟩ := exists_nameOf_eq hr
  rw [htable, isDistinguished_nameOf_eq_false_iff hd hnames hi hj] at hfalse
  exact (equivalent_iff_acceptsFrom hd hnames hi hj).mp hfalse

/-- Two states that lead to each other. -/
def swapEdges : List Edge := [⟨"x", 'a', "y"⟩, ⟨"y", 'a', "x"⟩]

/-- The automaton with these edges that accepts the words of odd length. -/
def oddLength : Dfa := onStates ["x", "y"] ["y"] ['a'] swapEdges

/-- The automaton with these edges that accepts nothing. -/
def rejectAll : Dfa := onStates ["x", "y"] [] ['a'] swapEdges

/-- One state that does not accept. -/
def mergedOddLength : Dfa where
  alphabet := ['a']
  states := [⟨"\x7bx,y\x7d", false, [0]⟩]
  initial := 0

/-- The table of an automaton that accepts nothing merges the states of one with the same names that
are not equivalent. The quotient rejects what the automaton accepts. -/
theorem quotient_by_other_table_rejects :
    ofEdges "x" ["y"] none swapEdges = .ok oddLength ∧
      ofEdges "x" [] none swapEdges = .ok rejectAll ∧
        oddLength.quotient? rejectAll.minimize = some mergedOddLength ∧
          oddLength.accepts ['a'] = true ∧ mergedOddLength.accepts ['a'] = false := by
  refine ⟨rfl, rfl, ?_, ?_, ?_⟩ <;> decide +kernel

end Dfa

end Acceptors
