import Acceptors.Machine.Level

/-!
# The frontier of a search

While a level of the tree is visited, the queue holds what is left of the level and behind it the
successors of what was visited of it. When the level is used up, the queue is the next level. So
the search has visited all levels above the current one and a part of that one, and it has met no
accepting configuration there.

## Main definitions

* `Machine.above`: the levels above a depth, one after the other
* `Machine.Frontier`: how the queue lies between two levels
* `Machine.Justified`: what an outcome says about the levels

## Main results

* `Frontier.of_pop?`, `Frontier.visit`: a step of the search
* `Frontier.justified`, `justified_search`: a whole search
-/

namespace Acceptors

namespace Machine

variable {m : Machine} {w : Word} {q : Queue Configuration} {depth : Nat}
  {seen waiting : List Configuration}

/-! ## The levels above a depth -/

/-- The configurations at the depths below the given number, in the order of the tree. -/
def above (m : Machine) (w : Word) (n : Nat) : List Configuration :=
  (List.range n).flatMap (m.level w)

theorem level_succ (n : Nat) : m.level w (n + 1) = (m.level w n).flatMap m.successors := by
  rw [level, below_add]
  rfl

theorem mem_above_iff {n : Nat} {c : Configuration} :
    c ∈ m.above w n ↔ ∃ k, k < n ∧ c ∈ m.level w k := by
  simp only [above, List.mem_flatMap, List.mem_range]

theorem above_succ (n : Nat) : m.above w (n + 1) = m.above w n ++ m.level w n := by
  rw [above, List.range_succ, List.flatMap_append, List.flatMap_singleton]
  rfl

theorem length_above_le {n k : Nat} (h : n ≤ k) :
    (m.above w n).length ≤ (m.above w k).length := by
  induction h with
  | refl => exact Nat.le_refl _
  | step _ ih =>
    rw [above_succ, List.length_append]
    omega

/-! ## One step of a search -/

/-- The queue between two levels: what is left of the level at `depth`, and behind it the successors
of what was seen of it. Nothing seen so far accepts. -/
structure Frontier (m : Machine) (w : Word) (q : Queue Configuration) (depth : Nat)
    (seen waiting : List Configuration) : Prop where
  level_eq : m.level w depth = seen ++ waiting
  toList_eq : q.toList = waiting ++ seen.flatMap m.successors
  not_accepting : ∀ c ∈ m.above w depth ++ seen, ¬ m.IsAccepting c

theorem Frontier.initial :
    m.Frontier w (.single (m.initialConfiguration w)) 0 [] [m.initialConfiguration w] where
  level_eq := rfl
  toList_eq := rfl
  not_accepting := by simp [above]

/-- A level that is used up leaves the next level in the queue. -/
theorem Frontier.turn (h : m.Frontier w q depth seen []) :
    m.Frontier w q (depth + 1) [] (m.level w (depth + 1)) := by
  have hlevel : m.level w depth = seen := by rw [h.level_eq, List.append_nil]
  refine ⟨rfl, ?_, ?_⟩
  · rw [h.toList_eq, level_succ, hlevel]
    simp
  · rw [above_succ, hlevel, List.append_nil]
    exact h.not_accepting

/-- The first of the queue is the next configuration of the tree. -/
theorem Frontier.of_pop? (h : m.Frontier w q depth seen waiting) {c : Configuration}
    {rest : Queue Configuration} (hq : q.pop? = some (c, rest)) :
    ∃ depth' seen' waiting', m.Frontier w q depth' seen' (c :: waiting') ∧
      m.above w depth' ++ seen' = m.above w depth ++ seen := by
  have htoList := Queue.toList_of_pop? hq
  cases waiting with
  | cons d waiting =>
    obtain rfl : d = c := by
      rw [h.toList_eq] at htoList
      exact (List.cons.inj htoList).1
    exact ⟨depth, seen, waiting, h, rfl⟩
  | nil =>
    -- the level is used up, and the next one is what the queue holds
    have hturn := h.turn
    have hlevel : m.level w (depth + 1) = c :: rest.toList := by
      have hnext := hturn.toList_eq
      rw [List.flatMap_nil, List.append_nil] at hnext
      rw [← hnext, htoList]
    rw [hlevel] at hturn
    refine ⟨depth + 1, [], rest.toList, hturn, ?_⟩
    rw [above_succ, h.level_eq, List.append_nil, List.append_nil]

/-- A visited configuration is replaced by its successors. -/
theorem Frontier.visit {c : Configuration} (h : m.Frontier w q depth seen (c :: waiting))
    {rest : Queue Configuration} (hq : q.pop? = some (c, rest)) (hc : ¬ m.IsAccepting c) :
    m.Frontier w (rest.pushAll (m.successors c)) depth (seen ++ [c]) waiting := by
  have htoList := Queue.toList_of_pop? hq
  rw [h.toList_eq, List.cons_append] at htoList
  have hrest : waiting ++ seen.flatMap m.successors = rest.toList := (List.cons.inj htoList).2
  refine ⟨?_, ?_, ?_⟩
  · rw [h.level_eq, List.append_assoc, List.singleton_append]
  · rw [Queue.toList_pushAll, ← hrest, List.flatMap_append, List.flatMap_singleton,
      List.append_assoc]
  · intro d hd
    rw [← List.append_assoc, List.mem_append, List.mem_singleton] at hd
    rcases hd with hd | rfl
    · exact h.not_accepting d hd
    · exact hc

/-! ## A whole search -/

/-- What an outcome says about the levels of the tree. The search is cut off in a level that it has
seen a part of, after as many visits as it reports. -/
def Justified (m : Machine) (w : Word) : SearchResult → Prop
  | .accepted c => ∃ n, c ∈ m.level w n ∧ m.IsAccepting c ∧ ∀ d ∈ m.above w n, ¬ m.IsAccepting d
  | .rejected => ∃ n, m.level w n = [] ∧ ∀ d ∈ m.above w n, ¬ m.IsAccepting d
  | .exhausted explored => ∃ n seen waiting, m.level w n = seen ++ waiting ∧ waiting ≠ [] ∧
      explored = (m.above w n ++ seen).length ∧ ∀ d ∈ m.above w n ++ seen, ¬ m.IsAccepting d

theorem Frontier.justified_rejected (h : m.Frontier w q depth seen waiting)
    (hq : q.pop? = none) : m.Justified w .rejected := by
  have hempty := Queue.pop?_eq_none_iff.mp hq
  rw [h.toList_eq] at hempty
  obtain ⟨rfl, hsuccessors⟩ := List.append_eq_nil_iff.mp hempty
  have hlevel : m.level w depth = seen := by rw [h.level_eq, List.append_nil]
  refine ⟨depth + 1, ?_, ?_⟩
  · rw [level_succ, hlevel, hsuccessors]
  · rw [above_succ, hlevel]
    exact h.not_accepting

theorem Frontier.justified (bound : Nat) (h : m.Frontier w q depth seen waiting) :
    m.Justified w (m.explore (m.above w depth ++ seen).length q bound).outcome := by
  induction bound generalizing q depth seen waiting with
  | zero =>
    cases hq : q.pop? with
    | none =>
      rw [explore_of_pop?_eq_none m hq]
      exact h.justified_rejected hq
    | some p =>
      obtain ⟨c, rest⟩ := p
      obtain ⟨n, seen', waiting', hf, hcount⟩ := h.of_pop? hq
      rw [explore_zero, hq, if_neg (by simp), ← hcount]
      exact ⟨n, seen', c :: waiting', hf.level_eq, by simp, rfl, hf.not_accepting⟩
  | succ bound ih =>
    cases hq : q.pop? with
    | none =>
      rw [explore_of_pop?_eq_none m hq]
      exact h.justified_rejected hq
    | some p =>
      obtain ⟨c, rest⟩ := p
      obtain ⟨n, seen', waiting', hf, hcount⟩ := h.of_pop? hq
      rw [explore, hq, ← hcount]
      dsimp only
      split
      · next hc =>
        refine ⟨n, ?_, accepting_iff.mp hc, fun d hd => ?_⟩
        · rw [hf.level_eq]
          simp
        · exact hf.not_accepting d (List.mem_append_left _ hd)
      · next hc =>
        have hvisit := hf.visit hq (fun hacc => hc (accepting_iff.mpr hacc))
        have hnext := ih hvisit
        rw [← List.append_assoc, List.length_append, List.length_singleton] at hnext
        exact hnext

/-- The outcome of a search is justified by the levels of the tree. -/
theorem justified_search (m : Machine) (w : Word) (bound : Nat) :
    m.Justified w (m.search w bound).outcome :=
  Frontier.initial.justified bound

/-- A search that is cut off has visited as many configurations as the bound allows. -/
theorem explored_of_explore {explored bound k : Nat} :
    (m.explore explored q bound).outcome = .exhausted k → k = explored + bound := by
  refine m.explore_induction
    (motive := fun explored bound e => e.outcome = .exhausted k → k = explored + bound)
    ?empty ?cut ?accepts ?goesOn
  case empty => simp
  case cut => exact fun explored h => (SearchResult.exhausted.inj h).symm
  case accepts => simp
  case goesOn =>
    -- the rest has one visit more behind it and one less before it
    intro explored bound visit e ih h
    have hrest := ih h
    omega

end Machine

end Acceptors
