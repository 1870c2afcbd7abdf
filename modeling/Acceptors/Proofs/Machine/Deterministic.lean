import Acceptors.Machine.Level
import Acceptors.Proofs.Simulation.Observers

/-!
# Searches of deterministic machines

If no two transitions of a machine leave one state and read the same symbols, a configuration has at
most one successor. The queue of a search then never holds more than one configuration, so nothing
waits behind a visit and the search is the plain loop that takes one transition after the other. A
run that halts is visited once more than it takes transitions. A bound on the visits therefore
suffices exactly if it is larger than the number of transitions.

## Main definitions

* `Machine.IsDeterministic`: at most one transition leaves a state and reads the same symbols
* `Machine.loop`: transitions taken one after the other, with a bound on the visits
* `Machine.HaltsAfter`: a run ends after a number of transitions

## Main results

* `isDeterministic_iff`: determinism of a table by its entries
* `IsDeterministic.search_eq_loop`: a search is the plain loop
* `IsDeterministic.outcome_search`: a search finds where the run halts, or is cut off
* `search_of_isDeterministic`: what searches of deterministic machines visit and find
-/

namespace Acceptors

namespace Machine

variable {m : Machine} {a c d : Configuration} {w : Word} {k : Nat}

/-! ## Plain runs -/

/-- At most one transition leaves a state and reads the same symbols. -/
def IsDeterministic (m : Machine) : Prop :=
  ∀ state symbols, (m.table.find state symbols).length ≤ 1

/-- The configuration that follows by the first transition that may fire, if there is one. -/
def next? (m : Machine) (c : Configuration) : Option Configuration :=
  (m.transitions c).head?.map c.apply

/-- What a run that halts in the configuration finds. -/
def halted (m : Machine) (c : Configuration) : SearchResult :=
  if c.state = m.final then .accepted c else .rejected

/-- The plain loop from a configuration, after some visits and with a bound for some more: as long
as a transition may fire, it is taken. -/
def loop (m : Machine) (explored : Nat) (c : Configuration) : Nat → Exploration
  | 0 => ⟨[], .exhausted explored⟩
  | bound + 1 =>
    match m.next? c with
    | none => ⟨[(c, 0)], m.halted c⟩
    | some d => (loop m (explored + 1) d bound).after (c, 0)

/-- A run from the configuration takes as many transitions as the number says, and no further one
may fire where it ends. -/
def HaltsAfter (m : Machine) (c : Configuration) (k : Nat) (d : Configuration) : Prop :=
  m.Reaches k c d ∧ m.transitions d = []

/-- Determinism of a table: no two entries agree in their state and in what they read. -/
theorem isDeterministic_iff :
    m.IsDeterministic ↔ (m.table.entries.map fun e => (e.1, e.2.read)).Nodup := by
  have hcount : ∀ state symbols,
      (m.table.entries.map fun e => (e.1, e.2.read)).count (state, symbols) =
        (m.table.find state symbols).length := by
    intro state symbols
    rw [TransitionTable.find, List.length_map, ← List.countP_eq_length_filter, List.count,
      List.countP_map]
    exact List.countP_congr fun e _ => by simp
  rw [List.nodup_iff_count, Prod.forall]
  simp only [hcount, IsDeterministic]

instance : Decidable m.IsDeterministic := decidable_of_iff _ isDeterministic_iff.symm

theorem next?_eq_none_iff : m.next? c = none ↔ m.transitions c = [] := by
  rw [next?, Option.map_eq_none_iff, List.head?_eq_none_iff]

theorem HaltsAfter.head (first : m.Step c d) (h : m.HaltsAfter d k a) :
    m.HaltsAfter c (k + 1) a := ⟨.head first h.1, h.2⟩

/-- Nothing waits behind a visit of the loop. -/
theorem waiting_loop {visit : Configuration × Nat} {explored bound : Nat}
    (h : visit ∈ (m.loop explored c bound).visited) : visit.2 = 0 := by
  induction bound generalizing explored c with
  | zero => simp [loop] at h
  | succ bound ih =>
    rw [loop] at h
    cases hnext : m.next? c with
    | none =>
      rw [hnext] at h
      obtain rfl := List.mem_singleton.mp h
      rfl
    | some d =>
      rw [hnext] at h
      rcases List.mem_cons.mp h with rfl | hrest
      · rfl
      · exact ih hrest

namespace IsDeterministic

theorem successors_eq (h : m.IsDeterministic) (c : Configuration) :
    m.successors c = (m.next? c).toList := by
  have hle : (m.transitions c).length ≤ 1 := h c.state c.symbols
  unfold successors next?
  match ht : m.transitions c with
  | [] => rfl
  | [t] => rfl
  | _ :: _ :: _ => simp [ht] at hle

theorem step_iff (h : m.IsDeterministic) : m.Step c d ↔ m.next? c = some d := by
  rw [← mem_successors, h.successors_eq, Option.mem_toList]

/-! ## The search is the plain loop -/

/-- A search from a queue of a single configuration is the plain loop. -/
theorem explore_eq_loop (h : m.IsDeterministic) {q : Queue Configuration} (hq : q.toList = [c])
    (explored bound : Nat) : m.explore explored q bound = m.loop explored c bound := by
  induction bound generalizing q c explored with
  | zero =>
    obtain ⟨rest, hpop, -⟩ := Queue.exists_pop?_of_toList hq
    rw [explore_zero, hpop, if_neg (by simp)]
    rfl
  | succ bound ih =>
    obtain ⟨rest, hpop, hrest⟩ := Queue.exists_pop?_of_toList hq
    have hsize : rest.size = 0 := by rw [rest.size_eq_length, hrest, List.length_nil]
    rw [explore, loop, hpop]
    dsimp only
    rw [hsize, h.successors_eq]
    cases hnext : m.next? c with
    | none =>
      -- the queue is empty after this visit
      have hnone := next?_eq_none_iff.mp hnext
      have hempty : (rest.pushAll (none : Option Configuration).toList).pop? = none := by
        rw [Queue.pop?_eq_none_iff, Queue.toList_pushAll, hrest]
        rfl
      rw [explore_of_pop?_eq_none m hempty]
      by_cases hfinal : c.state = m.final
      · rw [if_pos (accepting_iff.mpr ⟨hnone, hfinal⟩), halted, if_pos hfinal]
      · rw [if_neg (fun hacc => hfinal (accepting_iff.mp hacc).2), halted, if_neg hfinal]
        rfl
    | some d =>
      -- the successor is all that waits
      have hgoes : ¬ m.accepting c = true := by
        intro hacc
        rw [next?_eq_none_iff.mpr (accepting_iff.mp hacc).1] at hnext
        cases hnext
      rw [if_neg hgoes, ih]
      rw [Queue.toList_pushAll, hrest]
      rfl

theorem search_eq_loop (h : m.IsDeterministic) (w : Word) (bound : Nat) :
    m.search w bound = m.loop 0 (m.initialConfiguration w) bound :=
  h.explore_eq_loop rfl 0 bound

/-! ## What the loop finds -/

/-- A run that halts within the bound decides. -/
theorem outcome_loop_of_haltsAfter (h : m.IsDeterministic) {bound : Nat}
    (hd : m.HaltsAfter c k d) (hk : k < bound) (explored : Nat) :
    (m.loop explored c bound).outcome = m.halted d := by
  obtain ⟨hreach, hnone⟩ := hd
  -- the last configuration is visited as well, so the bound has to exceed the transitions
  induction hreach generalizing bound explored with
  | refl c =>
    obtain ⟨bound, rfl⟩ := Nat.exists_eq_add_one_of_ne_zero (Nat.ne_of_gt hk)
    rw [loop, next?_eq_none_iff.mpr hnone]
  | head first rest ih =>
    obtain ⟨bound, rfl⟩ := Nat.exists_eq_add_one_of_ne_zero (Nat.ne_of_gt (Nat.zero_lt_of_lt hk))
    rw [loop, h.step_iff.mp first]
    exact ih (Nat.lt_of_succ_lt_succ hk) (explored + 1) hnone

/-- A run that does not halt within the bound is cut off by it. -/
theorem outcome_loop_of_not_halts (h : m.IsDeterministic) {bound : Nat}
    (hruns : ∀ k < bound, ∀ d, ¬ m.HaltsAfter c k d) (explored : Nat) :
    (m.loop explored c bound).outcome = .exhausted (explored + bound) := by
  induction bound generalizing c explored with
  | zero => rfl
  | succ bound ih =>
    rw [loop]
    cases hnext : m.next? c with
    | none =>
      exact absurd ⟨.refl c, next?_eq_none_iff.mp hnext⟩ (hruns 0 (Nat.succ_pos bound) c)
    | some d =>
      have hstep := h.step_iff.mpr hnext
      have hrest := ih (fun k hk e he => hruns (k + 1) (Nat.succ_lt_succ hk) e (he.head hstep))
        (explored + 1)
      rw [Nat.add_right_comm] at hrest
      exact hrest

/-- A search finds where the run halts, or is cut off. -/
theorem outcome_search (h : m.IsDeterministic) (w : Word) (bound : Nat) :
    (∃ k < bound, ∃ d, m.HaltsAfter (m.initialConfiguration w) k d ∧
        (m.search w bound).outcome = m.halted d) ∨
      ((∀ k < bound, ∀ d, ¬ m.HaltsAfter (m.initialConfiguration w) k d) ∧
        (m.search w bound).outcome = .exhausted bound) := by
  rw [h.search_eq_loop]
  by_cases hhalts : ∃ k < bound, ∃ d, m.HaltsAfter (m.initialConfiguration w) k d
  · obtain ⟨k, hk, d, hd⟩ := hhalts
    exact .inl ⟨k, hk, d, hd, h.outcome_loop_of_haltsAfter hd hk 0⟩
  · have hruns : ∀ k < bound, ∀ d, ¬ m.HaltsAfter (m.initialConfiguration w) k d :=
      fun k hk d hd => hhalts ⟨k, hk, d, hd⟩
    refine .inr ⟨hruns, ?_⟩
    rw [h.outcome_loop_of_not_halts hruns, Nat.zero_add]

theorem outcome_search_of_haltsAfter (h : m.IsDeterministic) {bound : Nat}
    (hd : m.HaltsAfter (m.initialConfiguration w) k d) (hk : k < bound) :
    (m.search w bound).outcome = m.halted d := by
  rw [h.search_eq_loop, h.outcome_loop_of_haltsAfter hd hk]

theorem search_accepts_iff (h : m.IsDeterministic) {bound : Nat} :
    (m.search w bound).outcome = .accepted c ↔
      c.steps < bound ∧ m.HaltsAfter (m.initialConfiguration w) c.steps c ∧ c.state = m.final := by
  constructor
  · intro hacc
    rcases h.outcome_search w bound with ⟨k, hk, d, hd, hout⟩ | ⟨-, hout⟩
    · rw [hout, halted] at hacc
      split at hacc
      · next hfinal =>
        obtain rfl := SearchResult.accepted.inj hacc
        rw [steps_of_reaches_initial hd.1]
        exact ⟨hk, hd, hfinal⟩
      · cases hacc
    · rw [hout] at hacc
      cases hacc
  · rintro ⟨hlt, hhalts, hfinal⟩
    rw [h.outcome_search_of_haltsAfter hhalts hlt, halted, if_pos hfinal]

theorem search_rejects_iff (h : m.IsDeterministic) {bound : Nat} :
    (m.search w bound).outcome = .rejected ↔
      ∃ k < bound, ∃ c, m.HaltsAfter (m.initialConfiguration w) k c ∧ c.state ≠ m.final := by
  constructor
  · intro hrej
    rcases h.outcome_search w bound with ⟨k, hk, d, hd, hout⟩ | ⟨-, hout⟩
    · refine ⟨k, hk, d, hd, fun hfinal => ?_⟩
      rw [hout, halted, if_pos hfinal] at hrej
      cases hrej
    · rw [hout] at hrej
      cases hrej
  · rintro ⟨k, hk, d, hd, hfinal⟩
    rw [h.outcome_search_of_haltsAfter hd hk, halted, if_neg hfinal]

theorem search_exhausted_iff (h : m.IsDeterministic) {bound explored : Nat} :
    (m.search w bound).outcome = .exhausted explored ↔
      explored = bound ∧ ∀ k < bound, ∀ c, ¬ m.HaltsAfter (m.initialConfiguration w) k c := by
  rcases h.outcome_search w bound with ⟨k, hk, d, hd, hout⟩ | ⟨hruns, hout⟩
  · constructor
    · intro hexh
      rw [hout, halted] at hexh
      split at hexh <;> cases hexh
    · rintro ⟨-, hruns⟩
      exact absurd hd (hruns k hk d)
  · rw [hout, SearchResult.exhausted.injEq]
    exact ⟨fun heq => ⟨heq.symm, hruns⟩, fun hand => hand.1.symm⟩

end IsDeterministic

/-- **Searches of deterministic machines are plain runs.** A configuration has the successor that
the loop goes on with and no other. An observer is always told that nothing waits, with a bound and
without, and the search is the loop. It accepts a configuration exactly if the run halts there in
the final state after fewer transitions than the bound, it rejects exactly if the run halts after
fewer transitions than the bound in another state, and it is cut off exactly if the bound is zero or
the run does not halt within one transition less than the bound. -/
theorem search_of_isDeterministic (h : m.IsDeterministic) (w : Word) :
    (∀ c d, m.Step c d ↔ m.next? c = some d) ∧
    (∀ limit e, m.searchWithin w limit = some e → ∀ visit ∈ e.visited, visit.2 = 0) ∧
    ∀ bound,
      (∀ {σ : Type} (observe : σ → Event → σ) (start : σ),
        m.searchWith observe w start bound =
          (((m.search w bound).visited.map fun visit => .configuration visit.1 0).foldl observe
            start, (m.search w bound).outcome)) ∧
      m.search w bound = m.loop 0 (m.initialConfiguration w) bound ∧
      (∀ c, (m.search w bound).outcome = .accepted c ↔
        c.steps < bound ∧ m.HaltsAfter (m.initialConfiguration w) c.steps c ∧
          c.state = m.final) ∧
      ((m.search w bound).outcome = .rejected ↔
        ∃ k < bound, ∃ c, m.HaltsAfter (m.initialConfiguration w) k c ∧ c.state ≠ m.final) ∧
      ∀ explored, (m.search w bound).outcome = .exhausted explored ↔
        explored = bound ∧
          (bound = 0 ∨ ∀ k ≤ bound - 1, ∀ c, ¬ m.HaltsAfter (m.initialConfiguration w) k c) := by
  have hwaiting : ∀ bound, ∀ visit ∈ (m.search w bound).visited, visit.2 = 0 := by
    intro bound visit hvisit
    rw [h.search_eq_loop] at hvisit
    exact waiting_loop hvisit
  refine ⟨fun c d => h.step_iff, fun limit e he => ?_, fun bound =>
    ⟨fun observe start => ?_, h.search_eq_loop w bound, fun c => h.search_accepts_iff,
      h.search_rejects_iff, fun explored => ?_⟩⟩
  · obtain ⟨bound, rfl⟩ := exists_bound_of_searchWithin he
    exact hwaiting bound
  · have hevents : (m.search w bound).visited.map Event.ofVisit =
        (m.search w bound).visited.map fun visit => .configuration visit.1 0 :=
      List.map_congr_left fun visit hvisit =>
        congrArg (Event.configuration visit.1) (hwaiting bound visit hvisit)
    rw [m.searchWith_eq, hevents]
  · rw [h.search_exhausted_iff]
    rcases Nat.eq_zero_or_pos bound with rfl | hpos
    · simp
    · simp only [Nat.ne_of_gt hpos, false_or, Nat.lt_iff_le_pred hpos]

/-- A machine that walks over a word of `a`s to the first blank and steps back. -/
def marcher : Machine where
  initial := "read"
  final := "done"
  blank := '#'
  tapeCount := 1
  table := .ofList [("read", ⟨['a'], ['a'], [.right], "read"⟩),
    ("read", ⟨['#'], ['#'], [.left], "done"⟩)]

/-- It halts on `aa` after three transitions, so four visits suffice and three do not. -/
theorem marcher_plain_run :
    marcher.IsDeterministic ∧
    (marcher.search ['a', 'a'] 4).outcome =
      .accepted ⟨"done", [⟨['a', 'a', '#'], 1, '#'⟩], 3⟩ ∧
    (marcher.search ['a', 'a'] 3).outcome = .exhausted 3 := by
  have hdet : marcher.IsDeterministic := by decide
  obtain ⟨-, -, hbound⟩ := search_of_isDeterministic hdet ['a', 'a']
  refine ⟨hdet, ?_, ?_⟩
  · rw [(hbound 4).2.1]
    decide
  · rw [(hbound 3).2.1]
    decide

end Machine

end Acceptors
