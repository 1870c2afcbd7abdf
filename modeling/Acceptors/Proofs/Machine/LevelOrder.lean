import Acceptors.Proofs.Machine.Acceptance

/-!
# Searches in level order

A search goes through the tree of configurations level by level, and through a level in the order of
the tree. It stops at the first accepting configuration, at its bound, or when the tree is used up.
What waits behind a visited configuration is what was put in the queue and not visited: the initial
configuration and the children of all configurations visited before.

## Main definitions

* `Machine.enqueued`: what has been put in the queue after some visits
* `Machine.Stops`: what the end of a search says about all that was visited
* `Machine.InLevelOrder`: an exploration follows the order of the tree

## Main results

* `Frontier.enqueued_eq`: what was visited and what waits is what was put in the queue
* `Frontier.inLevelOrder`: an exploration from a queue between two levels
* `reaches_of_mem_visited`: what a search visits is reached
* `search_in_level_order`: searches with and without a bound
-/

namespace Acceptors

namespace Machine

variable {m : Machine} {w : Word} {q : Queue Configuration} {depth : Nat}
  {history seen waiting : List Configuration}

/-! ## What is put in the queue -/

/-- What has been put in the queue after the given visits: the initial configuration and all
children of visited ones. -/
def enqueued (m : Machine) (w : Word) (visited : List Configuration) : List Configuration :=
  m.initialConfiguration w :: visited.flatMap m.successors

/-- The children are those by the second and later transitions, then the one by the first. -/
theorem successors_eq (c : Configuration) :
    m.successors c = ((m.transitions c).drop 1 ++ (m.transitions c).take 1).map c.apply := by
  unfold successors
  cases m.transitions c <;> simp

/-- The children of all configurations above a depth are the levels down to that depth, but for the
initial one. -/
theorem enqueued_above (n : Nat) : m.enqueued w (m.above w n) = m.above w (n + 1) := by
  induction n with
  | zero => rfl
  | succ n ih =>
    have hnext : m.enqueued w (m.above w (n + 1)) =
        m.enqueued w (m.above w n) ++ (m.level w n).flatMap m.successors := by
      rw [enqueued, above_succ, List.flatMap_append]
      rfl
    rw [hnext, ih, ← level_succ, ← above_succ]

/-- What was visited and what waits is what was put in the queue. -/
theorem Frontier.enqueued_eq (h : m.Frontier w q depth seen waiting) :
    m.enqueued w (m.above w depth ++ seen) = m.above w depth ++ seen ++ q.toList := by
  have hsplit : m.enqueued w (m.above w depth ++ seen) =
      m.enqueued w (m.above w depth) ++ seen.flatMap m.successors := by
    rw [enqueued, List.flatMap_append]
    rfl
  rw [hsplit, enqueued_above, above_succ, h.level_eq, h.toList_eq]
  simp only [List.append_assoc]

/-! ## Explorations that follow the tree -/

/-- The configurations that an exploration visits. -/
def Exploration.configurations (e : Exploration) : List Configuration := e.visited.map Prod.fst

@[simp] theorem Exploration.configurations_nil (outcome : SearchResult) :
    (⟨[], outcome⟩ : Exploration).configurations = [] := rfl

@[simp] theorem Exploration.configurations_after (c : Configuration) (k : Nat) (e : Exploration) :
    (e.after (c, k)).configurations = c :: e.configurations := rfl

/-- What the end of a search says about all that was visited. An accepted configuration is the only
accepting one and the last; a search that rejects has visited the whole tree; a search that is cut
off leaves a part of the tree. -/
def Stops (m : Machine) (w : Word) (visited : List Configuration) : SearchResult → Prop
  | .accepted c => ∃ seen, visited = seen ++ [c] ∧ m.IsAccepting c ∧ ∀ d ∈ seen, ¬ m.IsAccepting d
  | .rejected => (∀ d ∈ visited, ¬ m.IsAccepting d) ∧
      ∃ depth, m.level w depth = [] ∧ visited = m.above w depth
  | .exhausted explored => (∀ d ∈ visited, ¬ m.IsAccepting d) ∧ visited.length = explored ∧
      ∃ depth, visited.length < (m.above w depth).length

/-- After the visits of `history`, the exploration goes on in the order of the tree, tells how many
configurations wait behind each that it visits, and stops where it should. -/
structure InLevelOrder (m : Machine) (w : Word) (history : List Configuration)
    (e : Exploration) : Prop where
  isPrefix : ∃ depth, history ++ e.configurations <+: m.above w depth
  waiting : ∀ before c k after, e.visited = before ++ (c, k) :: after →
    (history ++ before.map Prod.fst).length + 1 + k =
      (m.enqueued w (history ++ before.map Prod.fst)).length
  stops : m.Stops w (history ++ e.configurations) e.outcome

/-- An exploration that visits a configuration first, if it goes on well after it. -/
theorem InLevelOrder.after {c : Configuration} {k : Nat} {e : Exploration}
    (h : m.InLevelOrder w (history ++ [c]) e)
    (hk : history.length + 1 + k = (m.enqueued w history).length) :
    m.InLevelOrder w history (e.after (c, k)) := by
  have hvisited : history ++ (e.after (c, k)).configurations =
      history ++ [c] ++ e.configurations := by
    simp
  refine ⟨?_, ?_, ?_⟩
  · rw [hvisited]
    exact h.isPrefix
  · intro before d j rest hsplit
    cases before with
    | nil =>
      obtain ⟨rfl, rfl⟩ := Prod.mk.inj (List.cons.inj hsplit).1
      rw [List.map_nil, List.append_nil]
      exact hk
    | cons first before =>
      obtain ⟨rfl, hrest⟩ := List.cons.inj hsplit
      have hwaiting := h.waiting before d j rest hrest
      rw [List.append_assoc, List.singleton_append] at hwaiting
      exact hwaiting
  · rw [hvisited]
    exact h.stops

theorem Frontier.isPrefix (h : m.Frontier w q depth seen waiting) :
    m.above w depth ++ seen <+: m.above w (depth + 1) := by
  rw [above_succ, h.level_eq]
  exact (List.prefix_append_right_inj _).mpr (List.prefix_append seen waiting)

theorem Frontier.inLevelOrder_rejected (h : m.Frontier w q depth seen waiting)
    (hq : q.pop? = none) :
    m.InLevelOrder w (m.above w depth ++ seen) ⟨[], .rejected⟩ := by
  have hempty := Queue.pop?_eq_none_iff.mp hq
  rw [h.toList_eq] at hempty
  obtain ⟨rfl, hsuccessors⟩ := List.append_eq_nil_iff.mp hempty
  have hlevel : m.level w depth = seen := by rw [h.level_eq, List.append_nil]
  have hall : m.above w depth ++ seen ++ ([] : List Configuration) = m.above w (depth + 1) := by
    rw [above_succ, hlevel, List.append_nil]
  refine ⟨⟨depth + 1, ?_⟩, fun before c k after hsplit => ?_, ?_, ⟨depth + 1, ?_, hall⟩⟩
  · rw [← hall]
    exact List.prefix_refl _
  · cases before <;> cases hsplit
  · exact fun d hd => h.not_accepting d (by simpa using hd)
  · rw [level_succ, hlevel, hsuccessors]

/-- An exploration from a queue between two levels follows the order of the tree. -/
theorem Frontier.inLevelOrder (bound : Nat) (h : m.Frontier w q depth seen waiting) :
    m.InLevelOrder w (m.above w depth ++ seen)
      (m.explore (m.above w depth ++ seen).length q bound) := by
  induction bound generalizing q depth seen waiting with
  | zero =>
    cases hq : q.pop? with
    | none =>
      rw [explore_of_pop?_eq_none m hq]
      exact h.inLevelOrder_rejected hq
    | some p =>
      obtain ⟨c, rest⟩ := p
      obtain ⟨n, seen', waiting', hf, hhistory⟩ := h.of_pop? hq
      rw [explore_zero, hq, if_neg (by simp), ← hhistory]
      refine ⟨⟨n + 1, ?_⟩, fun before d k after hsplit => ?_, ?_, ?_, n + 1, ?_⟩
      · rw [Exploration.configurations_nil, List.append_nil]
        exact hf.isPrefix
      · cases before <;> cases hsplit
      · exact fun d hd => hf.not_accepting d (by simpa using hd)
      · rw [Exploration.configurations_nil, List.append_nil]
      · -- the configuration that is left lies in the same level
        rw [above_succ, hf.level_eq]
        simp
  | succ bound ih =>
    cases hq : q.pop? with
    | none =>
      rw [explore_of_pop?_eq_none m hq]
      exact h.inLevelOrder_rejected hq
    | some p =>
      obtain ⟨c, rest⟩ := p
      obtain ⟨n, seen', waiting', hf, hhistory⟩ := h.of_pop? hq
      have hcount : (m.above w n ++ seen').length + 1 + rest.size =
          (m.enqueued w (m.above w n ++ seen')).length := by
        rw [hf.enqueued_eq, Queue.toList_of_pop? hq, rest.size_eq_length]
        simp only [List.length_append, List.length_cons]
        omega
      rw [explore, hq, ← hhistory]
      dsimp only
      split
      · next hc =>
        -- the search ends with this visit
        refine InLevelOrder.after (e := ⟨[], .accepted c⟩) ⟨⟨n + 1, ?_⟩, ?_, ?_⟩ hcount
        · rw [Exploration.configurations_nil, List.append_nil, above_succ, hf.level_eq,
            List.append_assoc]
          exact (List.prefix_append_right_inj _).mpr
            ((List.prefix_append_right_inj _).mpr (List.prefix_append [c] waiting'))
        · intro before d k after hsplit
          cases before <;> cases hsplit
        · refine ⟨m.above w n ++ seen', ?_, accepting_iff.mp hc, hf.not_accepting⟩
          rw [Exploration.configurations_nil, List.append_nil]
      · next hc =>
        have hvisit := hf.visit hq (fun hacc => hc (accepting_iff.mpr hacc))
        have hnext := ih hvisit
        rw [← List.append_assoc, List.length_append, List.length_singleton] at hnext
        exact hnext.after hcount

theorem search_inLevelOrder (m : Machine) (w : Word) (bound : Nat) :
    m.InLevelOrder w [] (m.search w bound) :=
  Frontier.initial.inLevelOrder bound

/-! ## Searches -/

/-- What a search visits is reached by as many transitions as it counts. -/
theorem reaches_of_mem_visited {limit : Option Nat} {e : Exploration}
    (h : m.searchWithin w limit = some e) {visit : Configuration × Nat}
    (hvisit : visit ∈ e.visited) :
    m.Reaches visit.1.steps (m.initialConfiguration w) visit.1 := by
  obtain ⟨bound, rfl⟩ := exists_bound_of_searchWithin h
  obtain ⟨depth, hprefix⟩ := (m.search_inLevelOrder w bound).isPrefix
  have habove : visit.1 ∈ m.above w depth :=
    hprefix.subset (List.mem_append_right [] (List.mem_map_of_mem hvisit))
  obtain ⟨n, -, hlevel⟩ := mem_above_iff.mp habove
  have hreach := mem_level.mp hlevel
  rw [steps_of_reaches_initial hreach]
  exact hreach

theorem length_visited_explore (explored bound : Nat) :
    (m.explore explored q bound).visited.length ≤ bound := by
  refine m.explore_induction (motive := fun _ bound e => e.visited.length ≤ bound)
    ?empty ?cut ?accepts ?goesOn
  case empty => exact fun _ bound => Nat.zero_le bound
  case cut => exact fun _ => Nat.le_refl 0
  case accepts => exact fun _ bound _ _ => Nat.succ_le_succ (Nat.zero_le bound)
  case goesOn => exact fun _ _ _ _ ih => Nat.succ_le_succ ih

/-- A search without bound never ends exactly if every bound cuts it off. -/
theorem searchAll_eq_none_iff :
    m.searchAll w = none ↔ ∀ n, (m.search w n).outcome = .exhausted n := by
  constructor
  · intro h n
    cases houtcome : (m.search w n).outcome with
    | exhausted explored => rw [explored_of_explore houtcome, Nat.zero_add]
    | _ =>
      -- a bound that suffices would have been found
      have hends : (m.search w n).outcome.isExhausted = false := by rw [houtcome]; rfl
      rw [m.searchAll_eq_some_iff.mpr ⟨n, rfl, hends⟩] at h
      cases h
  · intro h
    cases hall : m.searchAll w with
    | none => rfl
    | some e =>
      obtain ⟨n, rfl, hends⟩ := m.searchAll_eq_some_iff.mp hall
      rw [h n] at hends
      cases hends

/-- **Searches go through the tree level by level.** The children of a configuration are those by
the second and later transitions, then the one by the first, and a configuration at a depth counts
as many steps. What a search visits is the beginning of the tree in level order; behind each visited
configuration waits what was put in the queue and not visited. The search ends at the first
accepting configuration, with the whole tree, or, at its bound only, before the rest of the tree. It
never ends exactly if it has no bound and each bound would cut it off. -/
theorem search_in_level_order (m : Machine) (w : Word) (limit : Option Nat) :
    (∀ c, m.successors c = ((m.transitions c).drop 1 ++ (m.transitions c).take 1).map c.apply) ∧
    (∀ n, ∀ c ∈ m.level w n, c.steps = n) ∧
    (∀ e, m.searchWithin w limit = some e →
      m.InLevelOrder w [] e ∧ (∀ bound ∈ limit, e.visited.length ≤ bound) ∧
        ∀ explored, e.outcome = .exhausted explored → limit = some explored) ∧
    (m.searchWithin w limit = none ↔
      limit = none ∧ ∀ n, (m.search w n).outcome = .exhausted n) := by
  refine ⟨successors_eq, fun n c hc => ?_, fun e he => ?_, ?_⟩
  · rw [steps_of_reaches (mem_level.mp hc)]
    exact Nat.zero_add n
  · cases limit with
    | some bound =>
      obtain rfl : m.search w bound = e := Option.some.inj he
      refine ⟨m.search_inLevelOrder w bound, ?_, fun explored hcut => ?_⟩
      · intro k hk
        obtain rfl : bound = k := Option.some.inj hk
        exact length_visited_explore 0 bound
      · rw [explored_of_explore hcut, Nat.zero_add]
    | none =>
      obtain ⟨n, rfl, hends⟩ := m.searchAll_eq_some_iff.mp he
      refine ⟨m.search_inLevelOrder w n, ?_, fun explored hcut => ?_⟩
      · intro k hk
        cases hk
      · rw [hcut] at hends
        cases hends
  · cases limit with
    | some bound => simp [searchWithin]
    | none => simp [searchWithin, searchAll_eq_none_iff]

/-- The guess is put in the queue before the configuration that reads on. -/
theorem guesser_in_level_order :
    guesser.searchWithin ['b', 'b'] none = some (guesser.search ['b', 'b'] 16) ∧
      guesser.InLevelOrder ['b', 'b'] [] (guesser.search ['b', 'b'] 16) ∧
        ((guesser.search ['b', 'b'] 16).visited.map fun visit => (visit.1.state, visit.2)) =
          [("read", 0), ("guess", 1), ("read", 1), ("found", 2)] := by
  have hends : (guesser.search ['b', 'b'] 16).outcome.isExhausted = false := by decide +kernel
  have hall : guesser.searchWithin ['b', 'b'] none = some (guesser.search ['b', 'b'] 16) :=
    guesser.searchAll_eq_some_iff.mpr ⟨16, rfl, hends⟩
  obtain ⟨-, -, hfound, -⟩ := search_in_level_order guesser ['b', 'b'] none
  refine ⟨hall, (hfound _ hall).1, ?_⟩
  decide +kernel

end Machine

end Acceptors
