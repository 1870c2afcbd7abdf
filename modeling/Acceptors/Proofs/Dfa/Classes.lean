import Acceptors.Dfa.Quotient
import Acceptors.Proofs.Dfa.Marks

/-!
# Merging equivalent states

The complete table leaves exactly the equivalent pairs unmarked, so its classes are those of the
equivalence: each state is in one class, and two states share a class if no word tells them apart.
Equivalent states have equivalent targets and agree on acceptance, so it does not matter that a
class takes both from its first member. The quotient therefore moves from class to class as the
automaton moves from state to state.

## Main definitions

* `Dfa.IsPartition`: classes of equivalent states
* `Dfa.SimulatedBy`: another automaton follows each step on the images of states

## Main results

* `isPartition_classIndices`: the classes of the complete table
* `SimulatedBy.path_eq`, `SimulatedBy.acceptsAfter_eq`: the images of a run
* `simulatedBy_quotient`, `isComplete_quotient`: the quotient follows each step
-/

namespace Acceptors

namespace Dfa

variable {d q : Dfa} {t : Table} {s r : Nat} {c : Char} {w : Word}

/-! ## Equivalent states -/

theorem Equivalent.symm (h : d.Equivalent s r) : d.Equivalent r s := fun w => (h w).symm

theorem Equivalent.trans {p : Nat} (h : d.Equivalent s r) (h' : d.Equivalent r p) :
    d.Equivalent s p := fun w => (h w).trans (h' w)

/-- The targets of equivalent states are equivalent. -/
theorem Equivalent.of_step? (h : d.Equivalent s r) {p p' : Nat} (hp : d.step? s c = some p)
    (hp' : d.step? r c = some p') : d.Equivalent p p' := by
  intro w
  have hcw := h (c :: w)
  rw [acceptsAfter_cons, acceptsAfter_cons, hp, hp'] at hcw
  exact hcw

/-! ## Classes -/

/-- The classes sort the states of a list: none is empty, they hold only such states and each of
them, and two states are in the same place exactly if they are equivalent. -/
structure IsPartition (d : Dfa) (classes : List (List Nat)) (l : List Nat) : Prop where
  ne_nil : ∀ P ∈ classes, P ≠ []
  subset : ∀ P ∈ classes, ∀ p ∈ P, p ∈ l
  covers : ∀ p ∈ l, ∃ P ∈ classes, p ∈ P
  place_eq_iff : ∀ {i j : Nat} {P Q : List Nat} {p q : Nat}, classes[i]? = some P →
    classes[j]? = some Q → p ∈ P → q ∈ Q → (i = j ↔ d.Equivalent p q)

section

variable {l : List Nat}

theorem mem_alike_iff (hmark : ∀ p ∈ l, t.mark s p = none ↔ d.Equivalent s p) {p : Nat} :
    p ∈ t.alike s l ↔ p ∈ l ∧ d.Equivalent s p := by
  rw [Table.alike, List.mem_filter, Option.isNone_iff_eq_none]
  exact and_congr_right fun hp => hmark p hp

theorem mem_apart_iff (hmark : ∀ p ∈ l, t.mark s p = none ↔ d.Equivalent s p) {p : Nat} :
    p ∈ t.apart s l ↔ p ∈ l ∧ ¬ d.Equivalent s p := by
  rw [Table.apart, List.mem_filter, ← Option.not_isNone, Bool.not_eq_true', ← Bool.not_eq_true,
    Option.isNone_iff_eq_none]
  exact and_congr_right fun hp => not_congr (hmark p hp)

/-- The class of a first state in front of the classes of the states that are not equivalent. -/
theorem IsPartition.cons {rest alike apart : List Nat} {classes : List (List Nat)}
    (h : d.IsPartition classes apart)
    (halike : ∀ p, p ∈ alike ↔ p ∈ rest ∧ d.Equivalent s p)
    (hapart : ∀ p, p ∈ apart ↔ p ∈ rest ∧ ¬ d.Equivalent s p) :
    d.IsPartition ((s :: alike) :: classes) (s :: rest) := by
  have hfirst : ∀ p ∈ s :: alike, d.Equivalent s p := by
    intro p hp
    rcases List.mem_cons.mp hp with rfl | hp
    · exact fun _ => rfl
    · exact ((halike p).mp hp).2
  -- the other classes only hold states that differ from the first one
  have hlater : ∀ {j : Nat} {Q : List Nat} {q : Nat}, classes[j]? = some Q → q ∈ Q →
      ¬ d.Equivalent s q := by
    intro j Q q hQ hq
    exact ((hapart q).mp (h.subset Q (List.mem_of_getElem? hQ) q hq)).2
  constructor
  case ne_nil =>
    intro P hP
    rcases List.mem_cons.mp hP with rfl | hP
    · exact List.cons_ne_nil s alike
    · exact h.ne_nil P hP
  case subset =>
    intro P hP p hp
    rcases List.mem_cons.mp hP with rfl | hP
    · rcases List.mem_cons.mp hp with rfl | hp
      · exact List.mem_cons_self
      · exact List.mem_cons_of_mem s ((halike p).mp hp).1
    · exact List.mem_cons_of_mem s ((hapart p).mp (h.subset P hP p hp)).1
  case covers =>
    intro p hp
    rcases List.mem_cons.mp hp with rfl | hp
    · exact ⟨_, List.mem_cons_self, List.mem_cons_self⟩
    · by_cases heq : d.Equivalent s p
      · exact ⟨_, List.mem_cons_self, List.mem_cons_of_mem s ((halike p).mpr ⟨hp, heq⟩)⟩
      · obtain ⟨P, hP, hpP⟩ := h.covers p ((hapart p).mpr ⟨hp, heq⟩)
        exact ⟨P, List.mem_cons_of_mem _ hP, hpP⟩
  case place_eq_iff =>
    intro i j P Q p q hP hQ hp hq
    cases i with
    | zero =>
      obtain rfl : s :: alike = P := Option.some.inj hP
      cases j with
      | zero =>
        obtain rfl : s :: alike = Q := Option.some.inj hQ
        exact iff_of_true rfl ((hfirst p hp).symm.trans (hfirst q hq))
      | succ j =>
        refine iff_of_false (Nat.succ_ne_zero j).symm fun heq => ?_
        exact hlater hQ hq ((hfirst p hp).trans heq)
    | succ i =>
      cases j with
      | zero =>
        obtain rfl : s :: alike = Q := Option.some.inj hQ
        refine iff_of_false (Nat.succ_ne_zero i) fun heq => ?_
        exact hlater hP hp ((hfirst q hq).trans heq.symm)
      | succ j =>
        rw [Nat.add_right_cancel_iff]
        exact h.place_eq_iff hP hQ hp hq

theorem isPartition_classesOf
    (hmark : ∀ p ∈ l, ∀ p' ∈ l, t.mark p p' = none ↔ d.Equivalent p p') :
    d.IsPartition (t.classesOf l) l := by
  induction l using Table.classesOf.induct t with
  | case1 => exact ⟨by simp, by simp, by simp, by simp⟩
  | case2 s rest ih =>
    have hrest : ∀ p ∈ rest, t.mark s p = none ↔ d.Equivalent s p := by
      intro p hp
      exact hmark s List.mem_cons_self p (List.mem_cons_of_mem s hp)
    have hsub : ∀ p ∈ t.apart s rest, p ∈ s :: rest := by
      intro p hp
      exact List.mem_cons_of_mem s (List.mem_filter.mp hp).1
    -- the classes behind the first one sort what a mark tells apart from `s`
    have hothers : d.IsPartition (t.classesOf (t.apart s rest)) (t.apart s rest) := by
      apply ih
      intro p hp p' hp'
      exact hmark p (hsub p hp) p' (hsub p' hp')
    rw [Table.classesOf_cons]
    exact hothers.cons (fun p => mem_alike_iff hrest) (fun p => mem_apart_iff hrest)

/-- The classes of the complete table are those of the equivalence. -/
theorem isPartition_classIndices (hd : d.IsComplete) :
    d.IsPartition d.minimize.classIndices (List.range d.states.length) := by
  have hlen : d.minimize.names.length = d.states.length := by
    rw [(isExact_minimize hd).names_eq, length_names]
  rw [Table.classIndices, hlen]
  apply isPartition_classesOf
  intro p hp p' hp'
  exact mark_minimize_eq_none_iff hd (List.mem_range.mp hp) (List.mem_range.mp hp')

end

/-! ## The class of a state -/

namespace IsPartition

variable {classes : List (List Nat)} {l : List Nat}

theorem lt_of_mem {n : Nat} {P : List Nat} (h : d.IsPartition classes (List.range n))
    (hP : P ∈ classes) (hs : s ∈ P) : s < n :=
  List.mem_range.mp (h.subset P hP s hs)

theorem exists_getElem?_classOf (h : d.IsPartition classes l) (hs : s ∈ l) :
    ∃ P, classes[classOf classes s]? = some P ∧ s ∈ P := by
  obtain ⟨P, hP, hsP⟩ := h.covers s hs
  have hlt : classOf classes s < classes.length :=
    List.findIdx_lt_length_of_exists ⟨P, hP, List.contains_iff_mem.mpr hsP⟩
  exact ⟨_, List.getElem?_eq_getElem hlt,
    List.contains_iff_mem.mp (List.findIdx_getElem (w := hlt))⟩

theorem classOf_eq {i : Nat} {P : List Nat} (h : d.IsPartition classes l)
    (hP : classes[i]? = some P) (hs : s ∈ P) : classOf classes s = i := by
  obtain ⟨Q, hQ, hsQ⟩ := h.exists_getElem?_classOf (h.subset P (List.mem_of_getElem? hP) s hs)
  exact (h.place_eq_iff hQ hP hsQ hs).mpr fun _ => rfl

theorem classOf_eq_iff (h : d.IsPartition classes l) (hs : s ∈ l) (hr : r ∈ l) :
    classOf classes s = classOf classes r ↔ d.Equivalent s r := by
  obtain ⟨P, hP, hsP⟩ := h.exists_getElem?_classOf hs
  obtain ⟨Q, hQ, hrQ⟩ := h.exists_getElem?_classOf hr
  exact h.place_eq_iff hP hQ hsP hrQ

/-- The first member of the class of a state is an equivalent state. -/
theorem exists_head (h : d.IsPartition classes l) (hs : s ∈ l) :
    ∃ r P, classes[classOf classes s]? = some (r :: P) ∧ r ∈ l ∧ d.Equivalent r s := by
  obtain ⟨P, hP, hsP⟩ := h.exists_getElem?_classOf hs
  have hmem := List.mem_of_getElem? hP
  obtain ⟨r, P, rfl⟩ := List.exists_cons_of_ne_nil (h.ne_nil P hmem)
  exact ⟨r, P, hP, h.subset _ hmem r List.mem_cons_self,
    (h.place_eq_iff hP hP List.mem_cons_self hsP).mp rfl⟩

end IsPartition

/-! ## The quotient follows each step -/

/-- Another automaton follows each step of `d`: `f` takes the initial state to the initial state,
targets to targets, and accepting states to accepting states. -/
structure SimulatedBy (d q : Dfa) (f : Nat → Nat) : Prop where
  initial_eq : q.initial = f d.initial
  step?_eq : ∀ {s : Nat} {c : Char}, s < d.states.length → q.step? (f s) c = (d.step? s c).map f
  acceptsAt_eq : ∀ {s : Nat}, s < d.states.length → q.acceptsAt (f s) = d.acceptsAt s

namespace SimulatedBy

variable {f : Nat → Nat}

theorem path_eq (h : d.SimulatedBy q f) (hd : d.IsComplete) (hs : s < d.states.length) :
    q.path (f s) w = (d.path s w).map (·.map f) := by
  induction w generalizing s with
  | nil => rfl
  | cons c w ih =>
    rw [path_cons, path_cons, h.step?_eq hs]
    cases ht : d.step? s c with
    | none => rfl
    | some t =>
      change (q.path (f t) w).map (f s :: ·) = ((d.path t w).map (s :: ·)).map (·.map f)
      rw [ih (hd.step?_lt ht)]
      cases d.path t w <;> rfl

theorem acceptsAfter_eq (h : d.SimulatedBy q f) (hd : d.IsComplete) (hs : s < d.states.length) :
    q.acceptsAfter (f s) w = d.acceptsAfter s w := by
  induction w generalizing s with
  | nil => exact h.acceptsAt_eq hs
  | cons c w ih =>
    rw [acceptsAfter_cons, acceptsAfter_cons, h.step?_eq hs]
    cases ht : d.step? s c with
    | none => rfl
    | some t => exact ih (hd.step?_lt ht)

end SimulatedBy

theorem quotient?_eq_some_iff : d.quotient? t = some q ↔ t.names = d.names ∧ {
    alphabet := d.alphabet
    states := t.classIndices.map (d.mergedState t.classIndices)
    initial := classOf t.classIndices d.initial : Dfa } = q := by
  rw [quotient?]
  by_cases h : t.names = d.names
  · rw [if_pos h]
    exact ⟨fun hq => ⟨h, Option.some.inj hq⟩, fun hq => congrArg some hq.2⟩
  · rw [if_neg h]
    refine ⟨fun hq => ?_, fun hq => absurd hq.1 h⟩
    cases hq

/-- An automaton has a quotient by its own table. -/
theorem exists_quotient (hd : d.IsComplete) : ∃ q, d.quotient? d.minimize = some q :=
  ⟨_, quotient?_eq_some_iff.mpr ⟨(isExact_minimize hd).names_eq, rfl⟩⟩

theorem alphabet_quotient (hq : d.quotient? t = some q) : q.alphabet = d.alphabet := by
  rw [← (quotient?_eq_some_iff.mp hq).2]

theorem initial_quotient (hq : d.quotient? t = some q) :
    q.initial = classOf t.classIndices d.initial := by
  rw [← (quotient?_eq_some_iff.mp hq).2]

theorem length_states_quotient (hq : d.quotient? t = some q) :
    q.states.length = t.classIndices.length := by
  rw [← (quotient?_eq_some_iff.mp hq).2, List.length_map]

/-- A class moves as its first member does. -/
theorem step?_of_mergedState {classes : List (List Nat)} {i : Nat} {P : List Nat}
    (halphabet : q.alphabet = d.alphabet) (hr : r < d.states.length)
    (hget : q.states[i]? = some (d.mergedState classes (r :: P))) :
    q.step? i c = (d.step? r c).map (classOf classes) := by
  rw [step?, step?, halphabet, hget, List.getElem?_eq_getElem hr]
  cases d.alphabet.idxOf? c with
  | none => rfl
  | some a => simp [mergedState, List.getElem?_eq_getElem hr]

theorem IsPartition.map_step? {classes : List (List Nat)} (hd : d.IsComplete)
    (h : d.IsPartition classes (List.range d.states.length)) (hr : r < d.states.length)
    (hs : s < d.states.length) (heq : d.Equivalent r s) :
    (d.step? r c).map (classOf classes) = (d.step? s c).map (classOf classes) := by
  by_cases hc : c ∈ d.alphabet
  · obtain ⟨p, hp⟩ := hd.exists_step? hr hc
    obtain ⟨p', hp'⟩ := hd.exists_step? hs hc
    rw [hp, hp', Option.map_some, Option.map_some, Option.some_inj]
    exact (h.classOf_eq_iff (List.mem_range.mpr (hd.step?_lt hp))
      (List.mem_range.mpr (hd.step?_lt hp'))).mpr (heq.of_step? hp hp')
  · rw [hd.step?_eq_none hr hc, hd.step?_eq_none hs hc]

section

variable {o : Dfa}

/-- The state of a class is made from its first member, which shares the class. -/
theorem IsPartition.exists_mergedState
    (h : o.IsPartition t.classIndices (List.range d.states.length)) (hq : d.quotient? t = some q)
    (hs : s < d.states.length) :
    ∃ r P, r < d.states.length ∧ o.Equivalent r s ∧
      q.states[classOf t.classIndices s]? = some (d.mergedState t.classIndices (r :: P)) := by
  obtain ⟨-, rfl⟩ := quotient?_eq_some_iff.mp hq
  obtain ⟨r, P, hP, hr, heq⟩ := h.exists_head (List.mem_range.mpr hs)
  refine ⟨r, P, List.mem_range.mp hr, heq, ?_⟩
  rw [List.getElem?_map, hP, Option.map_some]

/-- The quotient by any sorting of the states into classes is complete. -/
theorem IsPartition.isComplete_quotient
    (h : o.IsPartition t.classIndices (List.range d.states.length)) (hd : d.IsComplete)
    (hq : d.quotient? t = some q) : q.IsComplete := by
  obtain ⟨-, rfl⟩ := quotient?_eq_some_iff.mp hq
  have hlt : ∀ {s : Nat}, s < d.states.length →
      classOf t.classIndices s < t.classIndices.length := by
    intro s hs
    obtain ⟨P, hP, -⟩ := h.exists_getElem?_classOf (List.mem_range.mpr hs)
    exact (List.getElem?_eq_some_iff.mp hP).1
  -- the targets of a class are the classes of the targets of its first member
  have htargets : ∀ P ∈ t.classIndices, ∃ x ∈ d.states,
      (d.mergedState t.classIndices P).targets = x.targets.map (classOf t.classIndices) := by
    intro P hP
    obtain ⟨r, P, rfl⟩ := List.exists_cons_of_ne_nil (h.ne_nil P hP)
    have hr := h.lt_of_mem hP List.mem_cons_self
    exact ⟨_, List.getElem_mem hr, by simp [mergedState, List.getElem?_eq_getElem hr]⟩
  constructor
  case alphabet_increasing => exact hd.alphabet_increasing
  case initial_lt =>
    rw [List.length_map]
    exact hlt hd.initial_lt
  case length_targets =>
    intro x hx
    obtain ⟨P, hP, rfl⟩ := List.mem_map.mp hx
    obtain ⟨y, hy, htargets⟩ := htargets P hP
    rw [htargets, List.length_map]
    exact hd.length_targets y hy
  case target_lt =>
    intro x hx p hp
    obtain ⟨P, hP, rfl⟩ := List.mem_map.mp hx
    obtain ⟨y, hy, htargets⟩ := htargets P hP
    rw [htargets] at hp
    obtain ⟨p', hp', rfl⟩ := List.mem_map.mp hp
    rw [List.length_map]
    exact hlt (hd.target_lt y hy p' hp')

end

theorem simulatedBy_quotient (hd : d.IsComplete) (hq : d.quotient? d.minimize = some q) :
    d.SimulatedBy q (classOf d.minimize.classIndices) := by
  have hpart := isPartition_classIndices hd
  constructor
  case initial_eq => exact initial_quotient hq
  case step?_eq =>
    intro s c hs
    obtain ⟨r, P, hr, heq, hget⟩ := hpart.exists_mergedState hq hs
    rw [step?_of_mergedState (alphabet_quotient hq) hr hget, hpart.map_step? hd hr hs heq]
  case acceptsAt_eq =>
    intro s hs
    obtain ⟨r, P, -, heq, hget⟩ := hpart.exists_mergedState hq hs
    rw [acceptsAt, hget]
    exact heq []

theorem isComplete_quotient (hd : d.IsComplete) (hq : d.quotient? d.minimize = some q) :
    q.IsComplete :=
  (isPartition_classIndices hd).isComplete_quotient hd hq

end Dfa

end Acceptors
