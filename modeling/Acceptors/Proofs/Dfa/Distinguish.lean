import Acceptors.Proofs.Dfa.Marks

/-!
# Distinguished states

Of an automaton that is built from edges, the complete table distinguishes two states exactly if
some word is accepted from one of them and not from the other, and the recorded witness is such a
word.

## Main results

* `Table.witness_nameOf`: the witness of two names is the mark of their numbers
* `IsComplete.acceptsFrom_ne_iff`: the words that tell two named states apart
* `isDistinguished_nameOf_eq_false_iff`: the pairs of names that are not distinguished
* `isDistinguished_minimize_iff`: distinguished pairs and their witnesses
-/

namespace Acceptors

namespace Dfa

variable {d : Dfa} {i j : Nat}

theorem Table.witness_comm (t : Table) (p q : String) : t.witness p q = t.witness q p := by
  unfold Table.witness
  cases t.names.idxOf? p <;> cases t.names.idxOf? q <;> simp [t.mark_comm]

/-- In a table of the automaton the witness of two names is the mark of their numbers. -/
theorem Table.witness_nameOf {t : Table} (ht : t.names = d.names) (hnames : d.names.Nodup)
    (hi : i < d.states.length) (hj : j < d.states.length) :
    t.witness (d.nameOf i) (d.nameOf j) = t.mark i j := by
  have hindex : ∀ {s}, s < d.states.length → t.names.idxOf? (d.nameOf s) = some s := by
    intro s hs
    rw [ht]
    exact index?_nameOf hnames hs
  simp [Table.witness, hindex hi, hindex hj]

theorem witness_minimize_nameOf (hd : d.IsComplete) (hnames : d.names.Nodup)
    (hi : i < d.states.length) (hj : j < d.states.length) :
    d.minimize.witness (d.nameOf i) (d.nameOf j) = d.minimize.mark i j :=
  Table.witness_nameOf (isExact_minimize hd).names_eq hnames hi hj

/-- On names as on numbers, the words that tell two states apart are the same. -/
theorem IsComplete.acceptsFrom_ne_iff (hd : d.IsComplete) (hnames : d.names.Nodup)
    (hi : i < d.states.length) (hj : j < d.states.length) {w : Word} :
    d.acceptsFrom (d.nameOf i) w ≠ d.acceptsFrom (d.nameOf j) w ↔ d.TellsApart w i j := by
  rw [hd.acceptsFrom_nameOf hnames hi, hd.acceptsFrom_nameOf hnames hj, TellsApart]

/-! ## States that the table does not distinguish -/

theorem equivalent_iff_acceptsFrom (hd : d.IsComplete) (hnames : d.names.Nodup)
    (hi : i < d.states.length) (hj : j < d.states.length) :
    d.Equivalent i j ↔ ∀ w, d.acceptsFrom (d.nameOf i) w = d.acceptsFrom (d.nameOf j) w := by
  apply forall_congr'
  intro w
  rw [hd.acceptsFrom_nameOf hnames hi, hd.acceptsFrom_nameOf hnames hj]

theorem isDistinguished_nameOf_eq_false_iff (hd : d.IsComplete) (hnames : d.names.Nodup)
    (hi : i < d.states.length) (hj : j < d.states.length) :
    d.minimize.isDistinguished (d.nameOf i) (d.nameOf j) = false ↔ d.Equivalent i j := by
  rw [Table.isDistinguished, witness_minimize_nameOf hd hnames hi hj,
    ← mark_minimize_eq_none_iff hd hi hj, Option.isSome_eq_false_iff, Option.isNone_iff_eq_none]

/-! ## States that the table distinguishes -/

/-- **Two states are distinguished exactly if some word is accepted from one of them only.** The
witness of a distinguished pair is such a word, in either order of the pair. -/
theorem isDistinguished_minimize_iff {initial : String} {accepting : List String}
    {given : Option (List Char)} {edges : List Edge}
    (h : ofEdges initial accepting given edges = .ok d) {p q : String} (hp : p ∈ d.names)
    (hq : q ∈ d.names) :
    (d.minimize.isDistinguished p q = true ↔ ∃ w, d.acceptsFrom p w ≠ d.acceptsFrom q w) ∧
      (∀ w, d.minimize.witness p q = some w → d.acceptsFrom p w ≠ d.acceptsFrom q w) ∧
        d.minimize.witness p q = d.minimize.witness q p := by
  have hd := isComplete_of_ofEdges h
  have hnames := nodup_names_of_ofEdges h
  obtain ⟨i, hi, rfl⟩ := exists_nameOf_eq hp
  obtain ⟨j, hj, rfl⟩ := exists_nameOf_eq hq
  have htells : ∀ w, d.acceptsFrom (d.nameOf i) w ≠ d.acceptsFrom (d.nameOf j) w ↔
      d.TellsApart w i j := fun w => hd.acceptsFrom_ne_iff hnames hi hj
  have hwitness := witness_minimize_nameOf hd hnames hi hj
  refine ⟨?_, ?_, Table.witness_comm ..⟩
  · rw [Table.isDistinguished, hwitness, isSome_mark_minimize_iff hd hi hj]
    exact exists_congr fun w => (htells w).symm
  · intro w hw
    rw [hwitness] at hw
    exact (htells w).mpr ((isExact_minimize hd).tellsApart i j w hw).1

/-- The parity of the number of `a`: the state for an even number is there twice, and a `b` leads
from one to the other. -/
def parityEdges : List Edge := [
  ⟨"even", 'a', "odd"⟩,
  ⟨"even", 'b', "again"⟩,
  ⟨"odd", 'a', "again"⟩,
  ⟨"odd", 'b', "odd"⟩,
  ⟨"again", 'a', "odd"⟩,
  ⟨"again", 'b', "even"⟩]

/-- The automaton with these edges that accepts the words with an odd number of `a`. -/
def parity : Dfa := onStates ["even", "odd", "again"] ["odd"] ['a', 'b'] parityEdges

theorem parity_distinguishes :
    ofEdges "even" ["odd"] none parityEdges = .ok parity ∧
      (∃ w, parity.acceptsFrom "even" w ≠ parity.acceptsFrom "odd" w) ∧
        ∀ w, parity.acceptsFrom "even" w = parity.acceptsFrom "again" w := by
  have h : ofEdges "even" ["odd"] none parityEdges = .ok parity := rfl
  obtain ⟨hodd, -, -⟩ := isDistinguished_minimize_iff h (p := "even") (q := "odd")
    (by decide +kernel) (by decide +kernel)
  obtain ⟨hagain, -, -⟩ := isDistinguished_minimize_iff h (p := "even") (q := "again")
    (by decide +kernel) (by decide +kernel)
  refine ⟨h, hodd.mp (by decide +kernel), fun w => ?_⟩
  by_cases heq : parity.acceptsFrom "even" w = parity.acceptsFrom "again" w
  · exact heq
  · exact absurd (hagain.mpr ⟨w, heq⟩) (by decide +kernel)

end Dfa

end Acceptors
