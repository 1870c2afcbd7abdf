import Acceptors.Dfa.Complete

/-!
# Runs on names and on numbers

In a complete automaton every state has a target on each symbol of the alphabet and on no other, so
a run stops only at a symbol outside it. If no two states bear one name, as in every automaton that
is built from edges, a name stands for one number, and acceptance from a name is acceptance from
that number.

## Main results

* `IsComplete.isSome_step?_iff`, `IsComplete.step?_lt`: targets
* `IsComplete.path_eq_error_iff`: where a run stops
* `nodup_names_of_ofEdges`, `index?_nameOf`: a name stands for one state
* `IsComplete.acceptsFrom_nameOf`: acceptance from a name
-/

namespace Acceptors

theorem idxOf?_eq_some_iff_of_nodup {l : List String} (h : l.Nodup) {a : String} {i : Nat} :
    l.idxOf? a = some i ↔ l[i]? = some a := by
  rw [List.idxOf?_eq_some_iff]
  constructor
  · rintro ⟨hi, rfl, -⟩
    exact List.getElem?_eq_getElem hi
  · intro hget
    obtain ⟨hi, rfl⟩ := List.getElem?_eq_some_iff.mp hget
    refine ⟨hi, rfl, fun j hj heq => ?_⟩
    exact Nat.ne_of_lt hj ((List.getElem_inj h).mp heq)

namespace Dfa

variable {d : Dfa} {s t : Nat} {c : Char} {w : Word}

/-! ## Targets -/

theorem step?_eq_some_iff :
    d.step? s c = some t ↔
      ∃ a q, d.alphabet.idxOf? c = some a ∧ d.states[s]? = some q ∧ q.targets[a]? = some t := by
  rw [step?]
  cases d.alphabet.idxOf? c <;> cases d.states[s]? <;> simp

theorem IsComplete.step?_lt (h : d.IsComplete) (ht : d.step? s c = some t) :
    t < d.states.length := by
  obtain ⟨a, q, -, hq, hget⟩ := step?_eq_some_iff.mp ht
  exact h.target_lt q (List.mem_of_getElem? hq) t (List.mem_of_getElem? hget)

theorem IsComplete.isSome_step?_iff (h : d.IsComplete) (hs : s < d.states.length) :
    (d.step? s c).isSome ↔ c ∈ d.alphabet := by
  rw [Option.isSome_iff_exists]
  constructor
  · rintro ⟨t, ht⟩
    obtain ⟨a, -, ha, -, -⟩ := step?_eq_some_iff.mp ht
    exact List.isSome_idxOf?.mp (Option.isSome_of_eq_some ha)
  · intro hc
    obtain ⟨a, ha⟩ := Option.isSome_iff_exists.mp (List.isSome_idxOf?.mpr hc)
    have hlt : a < d.states[s].targets.length := by
      rw [h.length_targets _ (List.getElem_mem hs)]
      exact (List.idxOf?_eq_some_iff.mp ha).1
    exact ⟨_, step?_eq_some_iff.mpr
      ⟨a, _, ha, List.getElem?_eq_getElem hs, List.getElem?_eq_getElem hlt⟩⟩

theorem IsComplete.exists_step? (h : d.IsComplete) (hs : s < d.states.length)
    (hc : c ∈ d.alphabet) : ∃ t, d.step? s c = some t :=
  Option.isSome_iff_exists.mp ((h.isSome_step?_iff hs).mpr hc)

theorem IsComplete.step?_eq_none (h : d.IsComplete) (hs : s < d.states.length)
    (hc : c ∉ d.alphabet) : d.step? s c = none :=
  Option.not_isSome_iff_eq_none.mp fun hsome => hc ((h.isSome_step?_iff hs).mp hsome)

theorem IsComplete.stateAfter_lt (h : d.IsComplete) (hs : s < d.states.length)
    (ht : d.stateAfter s w = some t) : t < d.states.length := by
  induction w generalizing s with
  | nil =>
    obtain rfl : s = t := Option.some.inj ht
    exact hs
  | cons c w ih =>
    rw [stateAfter_cons] at ht
    obtain ⟨r, hr, ht⟩ := Option.bind_eq_some_iff.mp ht
    exact ih (h.step?_lt hr) ht

theorem path_cons_eq_ok_iff {visited : List Nat} :
    d.path s (c :: w) = .ok visited ↔
      ∃ t rest, d.step? s c = some t ∧ d.path t w = .ok rest ∧ s :: rest = visited := by
  rw [path_cons]
  cases d.step? s c with
  | none => simp
  | some t => cases hpath : d.path t w <;> simp [hpath, Except.map]

/-- A run stays in the states of a complete automaton. -/
theorem IsComplete.lt_of_mem_path (h : d.IsComplete) {visited : List Nat}
    (hs : s < d.states.length) (hpath : d.path s w = .ok visited) (ht : t ∈ visited) :
    t < d.states.length := by
  induction w generalizing s visited with
  | nil =>
    obtain rfl : [s] = visited := Except.ok.inj hpath
    rwa [List.mem_singleton.mp ht]
  | cons c w ih =>
    obtain ⟨r, rest, hr, hrest, rfl⟩ := path_cons_eq_ok_iff.mp hpath
    rcases List.mem_cons.mp ht with rfl | ht
    · exact hs
    · exact ih (h.step?_lt hr) hrest ht

/-- A run stops at the first symbol outside the alphabet, and only there. -/
theorem IsComplete.path_eq_error_iff (h : d.IsComplete) (hs : s < d.states.length)
    {e : RunError} :
    d.path s w = .error e ↔ ∃ c, w.find? (fun c => !d.alphabet.contains c) = some c ∧
      e = .unknownSymbol c := by
  induction w generalizing s with
  | nil => simp
  | cons c w ih =>
    rw [path_cons]
    cases ht : d.step? s c with
    | none =>
      have hc : c ∉ d.alphabet := by
        rw [← h.isSome_step?_iff hs, ht]
        simp
      simp [hc, eq_comm]
    | some t =>
      have hc : c ∈ d.alphabet := (h.isSome_step?_iff hs).mp (by simp [ht])
      have hrest : (d.path t w).map (s :: ·) = .error e ↔ d.path t w = .error e := by
        cases d.path t w <;> simp [Except.map]
      simp only [hrest, ih (h.step?_lt ht), List.find?_cons, List.contains_iff_mem.mpr hc,
        Bool.not_true]

/-! ## A name stands for one state -/

theorem names_of_ofEdges {initial : String} {accepting : List String}
    {given : Option (List Char)} {edges : List Edge}
    (h : ofEdges initial accepting given edges = .ok d) :
    d.names = namesOf initial accepting edges := by
  obtain ⟨-, rfl⟩ := ofEdges_eq_ok_iff.mp h
  simp [names, onStates, Function.comp_def]

theorem nodup_names_of_ofEdges {initial : String} {accepting : List String}
    {given : Option (List Char)} {edges : List Edge}
    (h : ofEdges initial accepting given edges = .ok d) : d.names.Nodup := by
  rw [names_of_ofEdges h]
  exact nodup_distinct _

theorem length_names : d.names.length = d.states.length := List.length_map _

theorem getElem?_names (hs : s < d.states.length) : d.names[s]? = some (d.nameOf s) := by
  rw [nameOf, List.getElem?_eq_getElem (by rwa [length_names])]
  rfl

theorem getElem_names (hs : s < d.names.length) : d.names[s] = d.nameOf s := by
  rw [nameOf, List.getElem?_eq_getElem hs, Option.getD_some]

theorem names_eq_map_range (d : Dfa) : d.names = (List.range d.states.length).map d.nameOf := by
  refine List.ext_getElem (by simp [length_names]) fun s hs hs' => ?_
  rw [getElem_names hs, List.getElem_map, List.getElem_range]

theorem nameOf_mem (hs : s < d.states.length) : d.nameOf s ∈ d.names :=
  List.mem_of_getElem? (getElem?_names hs)

theorem index?_nameOf (h : d.names.Nodup) (hs : s < d.states.length) :
    d.index? (d.nameOf s) = some s :=
  (idxOf?_eq_some_iff_of_nodup h).mpr (getElem?_names hs)

theorem exists_nameOf_eq {name : String} (h : name ∈ d.names) :
    ∃ s, s < d.states.length ∧ d.nameOf s = name := by
  obtain ⟨s, hs, rfl⟩ := List.mem_iff_getElem.mp h
  exact ⟨s, by rwa [length_names] at hs, (getElem_names hs).symm⟩

theorem isAccepting_nameOf (h : d.names.Nodup) (hs : s < d.states.length) :
    d.isAccepting (d.nameOf s) = d.acceptsAt s := by
  rw [isAccepting, index?_nameOf h hs]
  rfl

theorem next?_nameOf (h : d.names.Nodup) (hs : s < d.states.length) :
    d.next? (d.nameOf s) c = (d.step? s c).map d.nameOf := by
  rw [next?, index?_nameOf h hs, Option.bind_eq_bind, Option.bind_some]
  cases d.step? s c <;> rfl

theorem runFrom_nameOf (h : d.names.Nodup) (hs : s < d.states.length) :
    d.runFrom (d.nameOf s) w = (d.path s w).map (·.map d.nameOf) := by
  rw [runFrom, index?_nameOf h hs]

/-- Acceptance from a name is acceptance from the number of the name. -/
theorem IsComplete.acceptsFrom_nameOf (h : d.IsComplete) (hnames : d.names.Nodup)
    (hs : s < d.states.length) : d.acceptsFrom (d.nameOf s) w = d.acceptsAfter s w := by
  rw [acceptsFrom, runFrom_nameOf hnames hs, acceptsAfter]
  cases hpath : d.path s w with
  | error e =>
    have hnone : d.stateAfter s w = none := by
      rw [← Option.not_isSome_iff_eq_none, ← exists_path_iff, hpath]
      simp
    rw [hnone]
    rfl
  | ok visited =>
    have hlast := (path_eq_ok d hpath).2
    change (visited.map d.nameOf).getLast?.any d.isAccepting = _
    rw [List.getLast?_map, hlast]
    cases ht : d.stateAfter s w with
    | none => rfl
    | some t => exact isAccepting_nameOf hnames (h.stateAfter_lt hs ht)

end Dfa

end Acceptors
