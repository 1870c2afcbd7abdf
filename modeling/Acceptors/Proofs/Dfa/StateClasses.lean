import Acceptors.Proofs.Dfa.MergedNames

/-!
# The classes of a complete table

A table splits the states into classes by comparing each state with the first one that is left. So
whatever its marks are, each state gets into one class and the order of the states is kept. The
pairs that the complete table leaves unmarked are those that no word tells apart. Therefore any two
members of a class are unmarked, not only the first one and another, and a symbol leads the whole
class to one class. The states of a quotient are such classes, so its own table marks all pairs and
merging it again changes nothing.

## Main definitions

* `Sorts`: classes that sort the elements of a list and keep their order

## Main results

* `Table.sorts_classIndices`: the classes of any table sort the states
* `IsPartition.exists_targets`: a symbol leads a class to one class
* `classes_minimize_sort_states`: the classes of the complete table, by name
* `quotient_minimize_idempotent`: the complete table of a quotient, and merging again
-/

namespace Acceptors

/-- The classes sort the elements of a list and keep their order: each element is in one class,
once, none is empty, members stand in the order of the list, and so do the first members of the
classes. -/
structure Sorts {α : Type} (classes : List (List α)) (l : List α) : Prop where
  ne_nil : ∀ P ∈ classes, P ≠ []
  perm : classes.flatten.Perm l
  sublist : ∀ P ∈ classes, P.Sublist l
  heads_sublist : (classes.filterMap List.head?).Sublist l

namespace Sorts

variable {α β : Type} {classes : List (List α)} {l : List α}

theorem nil : Sorts ([] : List (List α)) [] where
  ne_nil := by simp
  perm := .refl _
  sublist := by simp
  heads_sublist := .refl _

/-- A first class in front of the classes of the elements that are left. -/
theorem cons {a : α} {rest : List α} (p : α → Bool)
    (h : Sorts classes (rest.filter fun b => !p b)) :
    Sorts ((a :: rest.filter p) :: classes) (a :: rest) where
  ne_nil := by
    intro P hP
    rcases List.mem_cons.mp hP with rfl | hP
    · exact List.cons_ne_nil a _
    · exact h.ne_nil P hP
  perm := by
    rw [List.flatten_cons, List.cons_append]
    exact ((h.perm.append_left _).trans (List.filter_append_perm p rest)).cons a
  sublist := by
    intro P hP
    rcases List.mem_cons.mp hP with rfl | hP
    · exact List.filter_sublist.cons_cons a
    · exact ((h.sublist P hP).trans List.filter_sublist).cons a
  heads_sublist := by
    rw [List.filterMap_cons_some List.head?_cons]
    exact (h.heads_sublist.trans List.filter_sublist).cons_cons a

theorem map (h : Sorts classes l) (f : α → β) : Sorts (classes.map (·.map f)) (l.map f) where
  ne_nil := by
    intro P hP
    obtain ⟨Q, hQ, rfl⟩ := List.mem_map.mp hP
    exact mt List.map_eq_nil_iff.mp (h.ne_nil Q hQ)
  perm := by
    rw [← List.map_flatten]
    exact h.perm.map f
  sublist := by
    intro P hP
    obtain ⟨Q, hQ, rfl⟩ := List.mem_map.mp hP
    exact (h.sublist Q hQ).map f
  heads_sublist := by
    have hhead : List.head? ∘ List.map f = fun P => P.head?.map f :=
      funext fun _ => List.head?_map
    rw [List.filterMap_map, hhead, ← List.map_filterMap]
    exact h.heads_sublist.map f

end Sorts

namespace Dfa

variable {d q : Dfa} {t : Table} {s r : Nat} {c : Char} {initial : String}
  {accepting : List String} {given : Option (List Char)} {edges : List Edge}

/-! ## The order of classes -/

/-- Whatever is marked, the classes sort the states. -/
theorem Table.sorts_classesOf (t : Table) (l : List Nat) : Sorts (t.classesOf l) l := by
  induction l using Table.classesOf.induct t with
  | case1 =>
    rw [Table.classesOf_nil]
    exact .nil
  | case2 s rest ih =>
    have hapart : t.apart s rest = rest.filter fun r => !(t.mark s r).isNone := by
      simp [Table.apart]
    rw [hapart] at ih
    rw [Table.classesOf_cons, hapart]
    exact ih.cons _

theorem Table.sorts_classIndices (t : Table) :
    Sorts t.classIndices (List.range t.names.length) := t.sorts_classesOf _

theorem sorts_classes_minimize (hd : d.IsComplete) : Sorts d.minimize.classes d.names := by
  have hsorts := d.minimize.sorts_classIndices.map d.nameOf
  rw [(isExact_minimize hd).names_eq, length_names, ← names_eq_map_range] at hsorts
  rwa [Table.classes, nameOf_minimize hd]

/-! ## Members of one class -/

section

variable {classes : List (List Nat)} {l P : List Nat}

/-- A class holds all states that are equivalent to one of its members. -/
theorem IsPartition.mem_of_equivalent (h : d.IsPartition classes l) (hP : P ∈ classes)
    (hs : s ∈ P) (hr : r ∈ l) (heq : d.Equivalent s r) : r ∈ P := by
  obtain ⟨i, hi⟩ := List.mem_iff_getElem?.mp hP
  obtain ⟨Q, hQ, hrQ⟩ := h.exists_getElem?_classOf hr
  rw [← (h.place_eq_iff hi hQ hs hrQ).mpr heq, hi] at hQ
  rwa [Option.some.inj hQ]

theorem IsPartition.equivalent_of_mem (h : d.IsPartition classes l) (hP : P ∈ classes)
    (hs : s ∈ P) (hr : r ∈ P) : d.Equivalent s r := by
  obtain ⟨i, hi⟩ := List.mem_iff_getElem?.mp hP
  exact (h.place_eq_iff hi hi hs hr).mp rfl

theorem IsPartition.exists_mem_iff (h : d.IsPartition classes l) (hs : s ∈ l) (hr : r ∈ l) :
    (∃ P ∈ classes, s ∈ P ∧ r ∈ P) ↔ d.Equivalent s r := by
  constructor
  · rintro ⟨P, hP, hsP, hrP⟩
    exact h.equivalent_of_mem hP hsP hrP
  · intro heq
    obtain ⟨P, hP, hsP⟩ := h.covers s hs
    exact ⟨P, hP, hsP, h.mem_of_equivalent hP hsP hr heq⟩

/-- A symbol leads all members of a class to members of one class. -/
theorem IsPartition.exists_targets (hd : d.IsComplete)
    (h : d.IsPartition classes (List.range d.states.length)) (hP : P ∈ classes)
    (hc : c ∈ d.alphabet) : ∃ Q ∈ classes, ∀ s ∈ P, ∃ p ∈ Q, d.step? s c = some p := by
  have hlt : ∀ s ∈ P, s < d.states.length := fun s hs => h.lt_of_mem hP hs
  obtain ⟨r, hr⟩ := List.exists_mem_of_ne_nil P (h.ne_nil P hP)
  obtain ⟨p, hp⟩ := hd.exists_step? (hlt r hr) hc
  obtain ⟨Q, hQ, hpQ⟩ := h.covers p (List.mem_range.mpr (hd.step?_lt hp))
  refine ⟨Q, hQ, fun s hs => ?_⟩
  obtain ⟨p', hp'⟩ := hd.exists_step? (hlt s hs) hc
  -- the targets of equivalent states are equivalent, so they share the class
  have heq : d.Equivalent p p' := (h.equivalent_of_mem hP hr hs).of_step? hp hp'
  exact ⟨p', h.mem_of_equivalent hQ hpQ (List.mem_range.mpr (hd.step?_lt hp')) heq, hp'⟩

end

/-! ## Classes by name -/

theorem mem_classes_minimize_iff (hd : d.IsComplete) {names : List String} :
    names ∈ d.minimize.classes ↔ ∃ P ∈ d.minimize.classIndices, P.map d.nameOf = names := by
  rw [Table.classes, nameOf_minimize hd, List.mem_map]

theorem nameOf_mem_map_iff (hnames : d.names.Nodup) {P : List Nat}
    (hP : ∀ r ∈ P, r < d.states.length) (hs : s < d.states.length) :
    d.nameOf s ∈ P.map d.nameOf ↔ s ∈ P := by
  constructor
  · intro h
    obtain ⟨r, hr, heq⟩ := List.mem_map.mp h
    rwa [← nameOf_injOn hnames (hP r hr) hs heq]
  · exact List.mem_map_of_mem

/-- Two states are in one class exactly if the table does not distinguish them. -/
theorem exists_mem_classes_iff (hd : d.IsComplete) (hnames : d.names.Nodup) {p r : String}
    (hp : p ∈ d.names) (hr : r ∈ d.names) :
    (∃ P ∈ d.minimize.classes, p ∈ P ∧ r ∈ P) ↔ d.minimize.isDistinguished p r = false := by
  obtain ⟨i, hi, rfl⟩ := exists_nameOf_eq hp
  obtain ⟨j, hj, rfl⟩ := exists_nameOf_eq hr
  have hpart := isPartition_classIndices hd
  have hmem : ∀ P ∈ d.minimize.classIndices, ∀ {s}, s < d.states.length →
      (d.nameOf s ∈ P.map d.nameOf ↔ s ∈ P) := by
    intro P hP s hs
    exact nameOf_mem_map_iff hnames (fun r hr => hpart.lt_of_mem hP hr) hs
  rw [isDistinguished_nameOf_eq_false_iff hd hnames hi hj,
    ← hpart.exists_mem_iff (List.mem_range.mpr hi) (List.mem_range.mpr hj)]
  constructor
  · rintro ⟨names, hnames, hi', hj'⟩
    obtain ⟨P, hP, rfl⟩ := (mem_classes_minimize_iff hd).mp hnames
    exact ⟨P, hP, (hmem P hP hi).mp hi', (hmem P hP hj).mp hj'⟩
  · rintro ⟨P, hP, hi', hj'⟩
    exact ⟨_, (mem_classes_minimize_iff hd).mpr ⟨P, hP, rfl⟩, (hmem P hP hi).mpr hi',
      (hmem P hP hj).mpr hj'⟩

/-- The members of a class agree on acceptance, and a symbol leads them to one class. -/
theorem agree_of_mem_classes (hd : d.IsComplete) (hnames : d.names.Nodup) {P : List String}
    (hmem : P ∈ d.minimize.classes) :
    (∀ p ∈ P, ∀ r ∈ P, d.isAccepting p = d.isAccepting r) ∧
      ∀ c ∈ d.alphabet, ∃ Q ∈ d.minimize.classes, ∀ p ∈ P, ∃ r ∈ Q, d.next? p c = some r := by
  obtain ⟨P, hP, rfl⟩ := (mem_classes_minimize_iff hd).mp hmem
  have hpart := isPartition_classIndices hd
  have hlt : ∀ s ∈ P, s < d.states.length := by
    intro s hs
    exact hpart.lt_of_mem hP hs
  constructor
  · intro p hp r hr
    obtain ⟨i, hi, rfl⟩ := List.mem_map.mp hp
    obtain ⟨j, hj, rfl⟩ := List.mem_map.mp hr
    rw [isAccepting_nameOf hnames (hlt i hi), isAccepting_nameOf hnames (hlt j hj)]
    exact hpart.equivalent_of_mem hP hi hj []
  · intro c hc
    obtain ⟨Q, hQ, htargets⟩ := hpart.exists_targets hd hP hc
    refine ⟨_, (mem_classes_minimize_iff hd).mpr ⟨Q, hQ, rfl⟩, fun p hp => ?_⟩
    obtain ⟨i, hi, rfl⟩ := List.mem_map.mp hp
    obtain ⟨j, hj, hstep⟩ := htargets i hi
    refine ⟨d.nameOf j, List.mem_map_of_mem hj, ?_⟩
    rw [next?_nameOf hnames (hlt i hi), hstep, Option.map_some]

/-- **The classes are the true partition into equivalent states.** Of an automaton that is built
from edges, every state is in one class of the complete table, once, and the classes and their
members keep the order of the states. Any two states are in one class exactly if the table does not
distinguish them. The members of a class agree on acceptance, and each symbol of the alphabet leads
them to members of one class. -/
theorem classes_minimize_sort_states (h : ofEdges initial accepting given edges = .ok d) :
    d.names.Nodup ∧ Sorts d.minimize.classes d.names ∧
      (∀ p ∈ d.names, ∀ r ∈ d.names,
        (∃ P ∈ d.minimize.classes, p ∈ P ∧ r ∈ P) ↔ d.minimize.isDistinguished p r = false) ∧
      ∀ P ∈ d.minimize.classes,
        (∀ p ∈ P, ∀ r ∈ P, d.isAccepting p = d.isAccepting r) ∧
          ∀ c ∈ d.alphabet, ∃ Q ∈ d.minimize.classes, ∀ p ∈ P, ∃ r ∈ Q, d.next? p c = some r := by
  have hd := isComplete_of_ofEdges h
  have hnames := nodup_names_of_ofEdges h
  refine ⟨hnames, sorts_classes_minimize hd, ?_, ?_⟩
  · intro p hp r hr
    exact exists_mem_classes_iff hd hnames hp hr
  · intro P hP
    exact agree_of_mem_classes hd hnames hP

/-- Six states in a ring. -/
def hexagonEdges : List Edge := [
  ⟨"0", 'a', "1"⟩,
  ⟨"1", 'a', "2"⟩,
  ⟨"2", 'a', "3"⟩,
  ⟨"3", 'a', "4"⟩,
  ⟨"4", 'a', "5"⟩,
  ⟨"5", 'a', "0"⟩]

/-- The automaton with these edges that accepts in every other state. -/
def hexagon : Dfa := onStates ["0", "1", "2", "3", "4", "5"] ["0", "2", "4"] ['a'] hexagonEdges

/-- Neither of two later members of a class was compared with the other. -/
theorem hexagon_classes_sort_states :
    ofEdges "0" ["0", "2", "4"] none hexagonEdges = .ok hexagon ∧
      hexagon.minimize.classes = [["0", "2", "4"], ["1", "3", "5"]] ∧
        hexagon.minimize.isDistinguished "3" "5" = false ∧
          ∃ Q ∈ hexagon.minimize.classes,
            ∀ p ∈ ["1", "3", "5"], ∃ r ∈ Q, hexagon.next? p 'a' = some r := by
  have h : ofEdges "0" ["0", "2", "4"] none hexagonEdges = .ok hexagon := rfl
  have hclasses : hexagon.minimize.classes = [["0", "2", "4"], ["1", "3", "5"]] := by decide +kernel
  obtain ⟨-, -, hshared, hagree⟩ := classes_minimize_sort_states h
  have hmem : ["1", "3", "5"] ∈ hexagon.minimize.classes := by simp [hclasses]
  refine ⟨h, hclasses, ?_, ?_⟩
  · rw [← hshared "3" (by decide +kernel) "5" (by decide +kernel)]
    exact ⟨_, hmem, by simp, by simp⟩
  · exact (hagree _ hmem).2 'a' (by decide +kernel)

/-! ## Quotients -/

/-- Each state of a reduced automaton is alone in its class. -/
theorem IsReduced.classes_minimize (h : d.IsReduced) (hd : d.IsComplete) :
    d.minimize.classes = d.names.map ([·]) := by
  rw [Table.classes, h.classIndices_minimize hd, nameOf_minimize hd, names_eq_map_range,
    List.map_map, List.map_map]
  rfl

/-- **Merging is idempotent.** An automaton that is built from edges has a quotient by its complete
table. The complete table of the quotient marks every pair of different states, even of states that
bear one name, and leaves each state alone in its class. The quotient by that table is the same
automaton: its alphabet, its states with their names, targets and acceptance, and its initial
state. -/
theorem quotient_minimize_idempotent (h : ofEdges initial accepting given edges = .ok d) :
    ∃ q, d.quotient? d.minimize = some q ∧
      (∀ i < q.states.length, ∀ j < q.states.length, i ≠ j → (q.minimize.mark i j).isSome) ∧
      q.minimize.classes = q.names.map ([·]) ∧
      q.quotient? q.minimize = some q := by
  have hd := isComplete_of_ofEdges h
  obtain ⟨q, hq⟩ := exists_quotient hd
  have hcomplete := isComplete_quotient hd hq
  have hreduced := isReduced_quotient hd hq
  refine ⟨q, hq, ?_, hreduced.classes_minimize hcomplete, hreduced.quotient?_minimize hcomplete⟩
  intro i hi j hj hne
  exact hreduced.isSome_mark_minimize hcomplete hi hj hne

/-- The two states of this quotient bear one name, and they are marked all the same. -/
theorem braced_idempotent :
    ofEdges "p" ["\x7bp,q\x7d"] none bracedEdges = .ok braced ∧
      braced.quotient? braced.minimize = some bracedQuotient ∧
        (bracedQuotient.minimize.mark 0 1).isSome ∧
          bracedQuotient.minimize.classes = [["\x7bp,q\x7d"], ["\x7bp,q\x7d"]] ∧
            bracedQuotient.quotient? bracedQuotient.minimize = some bracedQuotient := by
  have h : ofEdges "p" ["\x7bp,q\x7d"] none bracedEdges = .ok braced := rfl
  have hquotient : braced.quotient? braced.minimize = some bracedQuotient := by decide +kernel
  obtain ⟨q, hq, hmarked, hclasses, hself⟩ := quotient_minimize_idempotent h
  obtain rfl : bracedQuotient = q := Option.some.inj (hquotient.symm.trans hq)
  exact ⟨h, hquotient, hmarked 0 (by decide) 1 (by decide) (by decide), hclasses, hself⟩

end Dfa

end Acceptors
