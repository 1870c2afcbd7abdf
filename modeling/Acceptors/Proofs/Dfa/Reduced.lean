import Acceptors.Proofs.Dfa.Classes

/-!
# Reduced automata

No two states of a reduced automaton are equivalent. The quotient of an automaton is reduced, since
two of its states are two classes. In a reduced automaton every class has one member, so that it is
its own quotient, and merging the states of an automaton again and again changes nothing after the
first time.

## Main definitions

* `Dfa.IsReduced`: no two states are equivalent
* `Dfa.MergesTo`: what merging makes of an automaton, any number of times

## Main results

* `isReduced_quotient`: the quotient is reduced
* `IsReduced.quotient?_minimize`: a reduced automaton is its own quotient
* `mergesTo_iff`: repeated merging ends with the quotient
-/

namespace Acceptors

namespace Dfa

variable {d e q : Dfa} {t : Table}

/-- No two states are equivalent. -/
def IsReduced (d : Dfa) : Prop :=
  ∀ s r : Nat, s < d.states.length → r < d.states.length → d.Equivalent s r → s = r

/-- The automata that merging makes of an automaton, any number of times. -/
inductive MergesTo (d : Dfa) : Dfa → Prop where
  | refl : MergesTo d d
  | tail {e q : Dfa} (rest : MergesTo d e) (last : e.quotient? e.minimize = some q) : MergesTo d q

/-! ## The quotient is reduced -/

/-- Every state of the quotient is the class of a state. -/
theorem exists_classOf_eq (hd : d.IsComplete) (hq : d.quotient? d.minimize = some q) {i : Nat}
    (hi : i < q.states.length) :
    ∃ s, s < d.states.length ∧ classOf d.minimize.classIndices s = i := by
  have hpart := isPartition_classIndices hd
  rw [length_states_quotient hq] at hi
  have hget := List.getElem?_eq_getElem hi
  have hmem := List.getElem_mem hi
  obtain ⟨s, hs⟩ := List.exists_mem_of_ne_nil _ (hpart.ne_nil _ hmem)
  exact ⟨s, hpart.lt_of_mem hmem hs, hpart.classOf_eq hget hs⟩

theorem isReduced_quotient (hd : d.IsComplete) (hq : d.quotient? d.minimize = some q) :
    q.IsReduced := by
  intro i j hi hj heq
  have hsim := simulatedBy_quotient hd hq
  obtain ⟨s, hs, rfl⟩ := exists_classOf_eq hd hq hi
  obtain ⟨r, hr, rfl⟩ := exists_classOf_eq hd hq hj
  have hpart := isPartition_classIndices hd
  rw [hpart.classOf_eq_iff (List.mem_range.mpr hs) (List.mem_range.mpr hr)]
  intro w
  rw [← hsim.acceptsAfter_eq hd hs, ← hsim.acceptsAfter_eq hd hr]
  exact heq w

/-! ## A reduced automaton is its own quotient -/

/-- If every pair has a mark, the classes have one member each. -/
theorem classesOf_eq_singletons {l : List Nat} (hl : l.Nodup)
    (hmark : ∀ p ∈ l, ∀ p' ∈ l, p ≠ p' → (t.mark p p').isSome) :
    t.classesOf l = l.map ([·]) := by
  induction l with
  | nil => simp
  | cons s rest ih =>
    obtain ⟨hs, hrest⟩ := List.nodup_cons.mp hl
    have hmarked : ∀ p ∈ rest, (t.mark s p).isSome := by
      intro p hp
      exact hmark s List.mem_cons_self p (List.mem_cons_of_mem s hp) fun h => hs (h ▸ hp)
    have halike : t.alike s rest = [] := by
      rw [Table.alike, List.filter_eq_nil_iff]
      intro p hp
      simp [Option.isSome_iff_ne_none.mp (hmarked p hp)]
    have hapart : t.apart s rest = rest := List.filter_eq_self.mpr hmarked
    rw [Table.classesOf_cons, halike, hapart, List.map_cons, ih hrest]
    intro p hp p' hp'
    exact hmark p (List.mem_cons_of_mem s hp) p' (List.mem_cons_of_mem s hp')

/-- The complete table of a reduced automaton marks every pair of different states. -/
theorem IsReduced.isSome_mark_minimize (h : d.IsReduced) (hd : d.IsComplete) {i j : Nat}
    (hi : i < d.states.length) (hj : j < d.states.length) (hne : i ≠ j) :
    (d.minimize.mark i j).isSome := by
  rw [Option.isSome_iff_ne_none, Ne, mark_minimize_eq_none_iff hd hi hj]
  exact fun heq => hne (h i j hi hj heq)

theorem IsReduced.classIndices_minimize (h : d.IsReduced) (hd : d.IsComplete) :
    d.minimize.classIndices = (List.range d.states.length).map ([·]) := by
  rw [Table.classIndices, (isExact_minimize hd).names_eq, length_names]
  apply classesOf_eq_singletons List.nodup_range
  intro p hp p' hp' hne
  exact h.isSome_mark_minimize hd (List.mem_range.mp hp) (List.mem_range.mp hp') hne

/-- A class of one member moves as this member, if all classes have one member. -/
theorem mergedState_singleton {classes : List (List Nat)} {s : Nat}
    (hclass : ∀ t < d.states.length, classOf classes t = t) (hd : d.IsComplete)
    (hs : s < d.states.length) : d.mergedState classes [s] = d.states[s] := by
  have hget := List.getElem?_eq_getElem hs
  have hname : d.nameOf s = d.states[s].name := by simp [nameOf, names, hget]
  have htargets : d.states[s].targets.map (classOf classes) = d.states[s].targets := by
    rw [← List.map_id d.states[s].targets, List.map_map]
    apply List.map_congr_left
    intro t ht
    exact hclass t (hd.target_lt _ (List.getElem_mem hs) t ht)
  simp [mergedState, className, hname, acceptsAt, hget, htargets]

/-- A reduced automaton is its own quotient. -/
theorem IsReduced.quotient?_minimize (h : d.IsReduced) (hd : d.IsComplete) :
    d.quotient? d.minimize = some d := by
  have hclasses := h.classIndices_minimize hd
  have hclass : ∀ t < d.states.length, classOf d.minimize.classIndices t = t := by
    intro t ht
    have hget : d.minimize.classIndices[t]? = some [t] := by simp [hclasses, ht]
    exact (isPartition_classIndices hd).classOf_eq hget (List.mem_singleton.mpr rfl)
  have hstates :
      d.minimize.classIndices.map (d.mergedState d.minimize.classIndices) = d.states := by
    apply List.ext_getElem
    · simp [hclasses]
    · intro s hleft hs
      have hget : d.minimize.classIndices[s]? = some [s] := by simp [hclasses, hs]
      obtain ⟨hlt, hget⟩ := List.getElem?_eq_some_iff.mp hget
      rw [List.getElem_map, hget]
      exact mergedState_singleton hclass hd hs
  rw [quotient?_eq_some_iff, hstates, hclass _ hd.initial_lt]
  exact ⟨(isExact_minimize hd).names_eq, rfl⟩

/-! ## Merging again -/

/-- Merging again after the first time changes nothing. -/
theorem mergesTo_iff (hd : d.IsComplete) (hq : d.quotient? d.minimize = some q) :
    d.MergesTo e ↔ e = d ∨ e = q := by
  have hself := (isReduced_quotient hd hq).quotient?_minimize (isComplete_quotient hd hq)
  constructor
  · intro h
    induction h with
    | refl => exact .inl rfl
    | tail rest last ih =>
      rcases ih with rfl | rfl
      · exact .inr (Option.some.inj (last.symm.trans hq))
      · exact .inr (Option.some.inj (last.symm.trans hself))
  · rintro (rfl | rfl)
    · exact .refl
    · exact .tail .refl hq

end Dfa

end Acceptors
