import Acceptors.Proofs.Dfa.ClassNames
import Acceptors.Proofs.Dfa.Distinguish
import Acceptors.Proofs.Dfa.Reduced

/-!
# Names after merging

All look-ups of states go by name and find the first state that bears it, so they find the state
that is meant exactly if the names are distinct. An automaton that is built from edges has distinct
names. Merging makes up names for classes, and nothing keeps such a name apart from that of another
state: the names of the quotient are distinct only if no two classes are named alike, as it is when no
state of the automaton bears a brace or a comma. Merging again does not change this.

## Main definitions

* `Dfa.FindsByName`: every look-up by name finds the state that is meant

## Main results

* `findsByName_iff`: look-ups go right exactly if the names are distinct
* `names_quotient`: the names of the quotient are the class names
* `nodup_names_of_mergesTo_iff`: when names are distinct after any number of merges
* `quotient_bears_name_twice`: a name in braces that a state bears already
-/

namespace Acceptors

namespace Dfa

variable {d e q : Dfa} {initial : String} {accepting : List String} {given : Option (List Char)}
  {edges : List Edge}

/-- Every look-up of a state by its name finds this state: its number, whether it accepts, its
targets, the runs from it and its witnesses. -/
structure FindsByName (d : Dfa) : Prop where
  index?_eq : ∀ s < d.states.length, d.index? (d.nameOf s) = some s
  isAccepting_eq : ∀ s < d.states.length, d.isAccepting (d.nameOf s) = d.acceptsAt s
  next?_eq : ∀ s < d.states.length, ∀ c, d.next? (d.nameOf s) c = (d.step? s c).map d.nameOf
  runFrom_eq : ∀ s < d.states.length, ∀ w,
    d.runFrom (d.nameOf s) w = (d.path s w).map (·.map d.nameOf)
  witness_eq : ∀ s < d.states.length, ∀ r < d.states.length,
    d.minimize.witness (d.nameOf s) (d.nameOf r) = d.minimize.mark s r

/-- Look-ups by name find the states that are meant exactly if the names are distinct. -/
theorem findsByName_iff (hd : d.IsComplete) : d.FindsByName ↔ d.names.Nodup := by
  constructor
  · intro h
    rw [List.nodup_iff_pairwise_ne, List.pairwise_iff_getElem]
    intro s r hs hr hlt heq
    rw [getElem_names, getElem_names] at heq
    rw [length_names] at hs hr
    -- one name would stand for two numbers
    have hindex := h.index?_eq s hs
    rw [heq, h.index?_eq r hr] at hindex
    exact Nat.ne_of_gt hlt (Option.some.inj hindex)
  · intro h
    constructor
    case index?_eq => exact fun s hs => index?_nameOf h hs
    case isAccepting_eq => exact fun s hs => isAccepting_nameOf h hs
    case next?_eq => exact fun s hs c => next?_nameOf h hs
    case runFrom_eq => exact fun s hs w => runFrom_nameOf h hs
    case witness_eq => exact fun s hs r hr => witness_minimize_nameOf hd h hs hr

theorem names_quotient (hd : d.IsComplete) (hq : d.quotient? d.minimize = some q) :
    q.names = d.minimize.classes.map className := by
  obtain ⟨-, rfl⟩ := quotient?_eq_some_iff.mp hq
  rw [names, Table.classes, List.map_map, List.map_map, nameOf_minimize hd]
  rfl

/-- **When names stay distinct.** An automaton that is built from edges has distinct names. However
often its states are merged, the names of the result are distinct exactly if nothing was merged at
all or no two classes are named alike, and so if no state bears a brace or a comma. The look-ups go
right exactly then. -/
theorem nodup_names_of_mergesTo_iff (h : ofEdges initial accepting given edges = .ok d)
    (he : d.MergesTo e) :
    d.names.Nodup ∧
      (e.names.Nodup ↔ e = d ∨ (d.minimize.classes.map className).Nodup) ∧
        ((∀ name ∈ d.names, IsPlain name) → e.names.Nodup) ∧
          (e.FindsByName ↔ e.names.Nodup) := by
  have hd := isComplete_of_ofEdges h
  have hnames := nodup_names_of_ofEdges h
  obtain ⟨q, hq⟩ := exists_quotient hd
  refine ⟨hnames, ?_⟩
  rcases (mergesTo_iff hd hq).mp he with rfl | rfl
  · exact ⟨by simp [hnames], fun _ => hnames, findsByName_iff hd⟩
  · rw [← names_quotient hd hq]
    refine ⟨⟨.inr, ?_⟩, ?_, findsByName_iff (isComplete_quotient hd hq)⟩
    · rintro (rfl | hdistinct)
      · exact hnames
      · exact hdistinct
    · exact nodup_names_quotient hd hnames hq

theorem parity_finds_classes_by_name :
    ofEdges "even" ["odd"] none parityEdges = .ok parity ∧
      ∃ q, parity.MergesTo q ∧ q.names = ["\x7beven,again\x7d", "odd"] ∧ q.FindsByName := by
  have h : ofEdges "even" ["odd"] none parityEdges = .ok parity := rfl
  have hd := isComplete_of_ofEdges h
  have hclasses : parity.minimize.classes.map className = ["\x7beven,again\x7d", "odd"] := by
    decide +kernel
  obtain ⟨q, hq⟩ := exists_quotient hd
  have hmerges : parity.MergesTo q := .tail .refl hq
  obtain ⟨-, hdistinct, -, hfinds⟩ := nodup_names_of_mergesTo_iff h hmerges
  refine ⟨h, q, hmerges, (names_quotient hd hq).trans hclasses, hfinds.mpr ?_⟩
  rw [hdistinct, hclasses]
  exact .inr (by decide)

/-- Two equivalent states, and a state that bears the name of their class. -/
def bracedEdges : List Edge := [
  ⟨"p", 'a', "\x7bp,q\x7d"⟩,
  ⟨"q", 'a', "\x7bp,q\x7d"⟩,
  ⟨"\x7bp,q\x7d", 'a', "q"⟩]

/-- The automaton with these edges that accepts the words of odd length. -/
def braced : Dfa := onStates ["p", "\x7bp,q\x7d", "q"] ["\x7bp,q\x7d"] ['a'] bracedEdges

/-- Its quotient, whose two states bear one name. -/
def bracedQuotient : Dfa where
  alphabet := ['a']
  states := [⟨"\x7bp,q\x7d", false, [1]⟩, ⟨"\x7bp,q\x7d", true, [0]⟩]
  initial := 0

/-- The name of a class may be that of another state. The class that accepts is then never found, so
that the quotient rejects what the automaton accepts. -/
theorem quotient_bears_name_twice :
    ofEdges "p" ["\x7bp,q\x7d"] none bracedEdges = .ok braced ∧
      braced.quotient? braced.minimize = some bracedQuotient ∧
        ¬ bracedQuotient.names.Nodup ∧
          braced.accepts ['a'] = true ∧ bracedQuotient.accepts ['a'] = false := by
  refine ⟨rfl, ?_, ?_, ?_, ?_⟩
  · decide +kernel
  · decide
  · decide +kernel
  · decide +kernel

end Dfa

end Acceptors
