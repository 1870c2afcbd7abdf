import Acceptors.Proofs.Machine.Frontier
import Mathlib.Order.WellFounded

/-!
# Searches decide acceptance

A machine accepts a word if some run on it stops in the final state. A search that ends has found
the shortest such run, or there is none and no run is infinite. Conversely a search with a large
enough bound ends if there is such a run, or if no run is infinite: a configuration has finitely
many successors, so the runs are then bounded.

## Main definitions

* `Machine.RunsEnd`: no run on a word is infinite

## Main results

* `exists_level_eq_nil`: if no run is infinite, the tree has finitely many levels
* `search_ends`: a bound beyond an accepting configuration or beyond the last level suffices
* `exists_bound_accepted`, `exists_bound_rejected`: bounds that lead to an answer
* `search_decides_acceptance`: what searches find, and when they find it
-/

namespace Acceptors

namespace Machine

variable {m : Machine} {w : Word}

/-! ## Infinite runs -/

/-- No run on a word is infinite: every sequence of configurations that begins with the initial one
leaves the steps of the machine somewhere. -/
def RunsEnd (m : Machine) (w : Word) : Prop :=
  ∀ run : Nat → Configuration, run 0 = m.initialConfiguration w →
    ∃ n, ¬ m.Step (run n) (run (n + 1))

theorem runsEnd_of_level_eq_nil {n : Nat} (h : m.level w n = []) : m.RunsEnd w := by
  intro run hrun
  by_contra hsteps
  push Not at hsteps
  have hreach : ∀ k, m.Reaches k (m.initialConfiguration w) (run k) := by
    intro k
    induction k with
    | zero => exact hrun ▸ .refl _
    | succ k ih => exact ih.trans (.head (hsteps k) (.refl _))
  have hmem := mem_level.mpr (hreach n)
  rw [h] at hmem
  exact List.not_mem_nil hmem

/-- Finitely many configurations have a common depth below which there is nothing. -/
theorem exists_below_eq_nil {l : List Configuration} (h : ∀ c ∈ l, ∃ n, m.below [c] n = []) :
    ∃ n, m.below l n = [] := by
  induction l with
  | nil => exact ⟨0, rfl⟩
  | cons c l ih =>
    obtain ⟨k, hk⟩ := h c List.mem_cons_self
    obtain ⟨n, hn⟩ := ih fun d hd => h d (List.mem_cons_of_mem c hd)
    refine ⟨k + n, List.eq_nil_iff_forall_not_mem.mpr fun e he => ?_⟩
    obtain ⟨d, hd, hr⟩ := mem_below.mp he
    rcases List.mem_cons.mp hd with rfl | hd
    · have hmem : e ∈ m.below [d] (k + n) := mem_below.mpr ⟨d, List.mem_singleton_self d, hr⟩
      rw [below_add, hk, below_nil] at hmem
      exact List.not_mem_nil hmem
    · have hmem : e ∈ m.below l (n + k) := mem_below.mpr ⟨d, hd, Nat.add_comm k n ▸ hr⟩
      rw [below_add, hn, below_nil] at hmem
      exact List.not_mem_nil hmem

theorem exists_below_eq_nil_of_acc {c : Configuration} (h : Acc (fun d c => m.Step c d) c) :
    ∃ n, m.below [c] n = [] := by
  induction h with
  | intro c _ ih =>
    -- the levels below a configuration are those below its successors
    obtain ⟨n, hn⟩ := exists_below_eq_nil fun d hd => ih d (mem_successors.mp hd)
    refine ⟨n + 1, ?_⟩
    rw [below, List.flatMap_singleton]
    exact hn

/-- If no run is infinite, the tree has finitely many levels. -/
theorem exists_level_eq_nil (h : m.RunsEnd w) : ∃ n, m.level w n = [] := by
  refine exists_below_eq_nil_of_acc ?_
  by_contra hacc
  obtain ⟨run, hrun, hsteps⟩ := not_acc_iff_exists_descending_chain.mp hacc
  obtain ⟨n, hn⟩ := h run hrun
  exact hn (hsteps n)

/-! ## What an outcome says about runs -/

theorem Justified.accepted {c : Configuration} (h : m.Justified w (.accepted c)) :
    m.IsAccepting c ∧ m.Reaches c.steps (m.initialConfiguration w) c ∧
      ∀ n < c.steps, ∀ d, m.Reaches n (m.initialConfiguration w) d → ¬ m.IsAccepting d := by
  obtain ⟨depth, hlevel, hacc, hnone⟩ := h
  have hreach := mem_level.mp hlevel
  rw [steps_of_reaches_initial hreach]
  refine ⟨hacc, hreach, fun n hn d hd => ?_⟩
  exact hnone d (mem_above_iff.mpr ⟨n, hn, mem_level.mpr hd⟩)

theorem Justified.rejected (h : m.Justified w .rejected) :
    (∀ n d, m.Reaches n (m.initialConfiguration w) d → ¬ m.IsAccepting d) ∧ m.RunsEnd w := by
  obtain ⟨depth, hlevel, hnone⟩ := h
  refine ⟨fun n d hd => ?_, runsEnd_of_level_eq_nil hlevel⟩
  have hmem := mem_level.mpr hd
  rcases Nat.lt_or_ge n depth with hn | hn
  · exact hnone d (mem_above_iff.mpr ⟨n, hn, hmem⟩)
  · rw [level_eq_nil_of_le hn hlevel] at hmem
    exact absurd hmem List.not_mem_nil

/-! ## Bounds that suffice -/

/-- A bound suffices if it covers the levels down to an accepting configuration, or all of them. -/
theorem search_ends {depth limit : Nat}
    (h : m.level w depth = [] ∨ ∃ d ∈ m.above w depth, m.IsAccepting d)
    (hlimit : (m.above w depth).length ≤ limit) :
    (m.search w limit).outcome.isExhausted = false := by
  cases houtcome : (m.search w limit).outcome with
  | accepted c => rfl
  | rejected => rfl
  | exhausted explored =>
    have hcount : explored = 0 + limit := explored_of_explore houtcome
    have hjustified := m.justified_search w limit
    rw [houtcome] at hjustified
    obtain ⟨n, seen, waiting, hlevel, hwaiting, hexplored, hnone⟩ := hjustified
    -- the search was cut off above the depth that the bound covers
    have hn : n < depth := by
      by_contra hle
      rcases h with hempty | ⟨d, hd, hacc⟩
      · rw [level_eq_nil_of_le (Nat.le_of_not_lt hle) hempty] at hlevel
        exact hwaiting (List.append_eq_nil_iff.mp hlevel.symm).2
      · obtain ⟨k, hk, hdk⟩ := mem_above_iff.mp hd
        exact hnone d (List.mem_append_left _ (mem_above_iff.mpr ⟨k, by omega, hdk⟩)) hacc
    have hle := length_above_le (m := m) (w := w) (Nat.succ_le_of_lt hn)
    have hpos := List.length_pos_iff.mpr hwaiting
    rw [above_succ, hlevel, List.length_append, List.length_append] at hle
    rw [List.length_append] at hexplored
    omega

/-! ## What searches find -/

theorem justified_searchWithin {limit : Option Nat} {e : Exploration}
    (h : m.searchWithin w limit = some e) : m.Justified w e.outcome := by
  obtain ⟨bound, rfl⟩ := exists_bound_of_searchWithin h
  exact m.justified_search w bound

/-- A bound that covers an accepting configuration makes the search accept. -/
theorem exists_bound_accepted {n : Nat} {d : Configuration}
    (hd : m.Reaches n (m.initialConfiguration w) d) (hacc : m.IsAccepting d) :
    ∃ bound c, ∀ limit ≥ bound, (m.search w limit).outcome = .accepted c := by
  have habove : d ∈ m.above w (n + 1) :=
    mem_above_iff.mpr ⟨n, Nat.lt_succ_self n, mem_level.mpr hd⟩
  have hends := search_ends (.inr ⟨d, habove, hacc⟩) (Nat.le_refl _)
  refine ⟨(m.above w (n + 1)).length, ?_⟩
  have hjustified := m.justified_search w (m.above w (n + 1)).length
  cases houtcome : (m.search w (m.above w (n + 1)).length).outcome with
  | accepted c =>
    refine ⟨c, ?_⟩
    intro limit hlimit
    rw [search_of_le m hlimit hends, houtcome]
  | rejected =>
    rw [houtcome] at hjustified
    exact absurd hacc (hjustified.rejected.1 n d hd)
  | exhausted explored =>
    rw [houtcome] at hends
    cases hends

/-- A bound that covers all levels makes the search reject if nothing accepts. -/
theorem exists_bound_rejected
    (hnone : ∀ n d, m.Reaches n (m.initialConfiguration w) d → ¬ m.IsAccepting d)
    (hruns : m.RunsEnd w) :
    ∃ bound, ∀ limit ≥ bound, (m.search w limit).outcome = .rejected := by
  obtain ⟨depth, hdepth⟩ := exists_level_eq_nil hruns
  refine ⟨(m.above w depth).length, ?_⟩
  intro limit hlimit
  have hends := search_ends (.inl hdepth) hlimit
  have hjustified := m.justified_search w limit
  cases houtcome : (m.search w limit).outcome with
  | accepted c =>
    rw [houtcome] at hjustified
    obtain ⟨hacc, hreach, -⟩ := hjustified.accepted
    exact absurd hacc (hnone _ c hreach)
  | rejected => rfl
  | exhausted explored =>
    rw [houtcome] at hends
    cases hends

/-- **Searches decide acceptance.** A configuration that a search accepts is reached by as many
steps as it counts, and none is accepting after fewer; a search that rejects leaves no accepting
configuration and no infinite run. If some run accepts, every large enough bound makes the search
accept; if none does and no run is infinite, every large enough bound makes it reject. -/
theorem search_decides_acceptance (m : Machine) (w : Word) :
    (∀ limit e c, m.searchWithin w limit = some e → e.outcome = .accepted c →
      m.IsAccepting c ∧ m.Reaches c.steps (m.initialConfiguration w) c ∧
        ∀ n < c.steps, ∀ d, m.Reaches n (m.initialConfiguration w) d → ¬ m.IsAccepting d) ∧
    (∀ limit e, m.searchWithin w limit = some e → e.outcome = .rejected →
      (∀ n d, m.Reaches n (m.initialConfiguration w) d → ¬ m.IsAccepting d) ∧ m.RunsEnd w) ∧
    ((∃ n d, m.Reaches n (m.initialConfiguration w) d ∧ m.IsAccepting d) →
      ∃ bound c, ∀ limit ≥ bound, (m.search w limit).outcome = .accepted c) ∧
    ((∀ n d, m.Reaches n (m.initialConfiguration w) d → ¬ m.IsAccepting d) → m.RunsEnd w →
      ∃ bound, ∀ limit ≥ bound, (m.search w limit).outcome = .rejected) := by
  refine ⟨?_, ?_, ?_, exists_bound_rejected⟩
  · intro limit e c hsearch houtcome
    have hjustified := justified_searchWithin hsearch
    rw [houtcome] at hjustified
    exact hjustified.accepted
  · intro limit e hsearch houtcome
    have hjustified := justified_searchWithin hsearch
    rw [houtcome] at hjustified
    exact hjustified.rejected
  · rintro ⟨n, d, hd, hacc⟩
    exact exists_bound_accepted hd hacc

/-- A machine that guesses where two `b` stand side by side. -/
def guesser : Machine where
  initial := "read"
  final := "found"
  blank := '#'
  tapeCount := 1
  table := .ofList [
    ("read", ⟨['a'], ['a'], [.right], "read"⟩),
    ("read", ⟨['b'], ['b'], [.right], "read"⟩),
    ("read", ⟨['b'], ['b'], [.right], "guess"⟩),
    ("guess", ⟨['b'], ['b'], [.stay], "found"⟩)]

theorem guesser_decides :
    guesser.check = .ok () ∧
      (∃ bound c, ∀ limit ≥ bound, (guesser.search ['a', 'b', 'b'] limit).outcome = .accepted c) ∧
        guesser.RunsEnd ['a', 'b'] := by
  obtain ⟨haccepted, -, hfound, -⟩ := search_decides_acceptance guesser ['a', 'b', 'b']
  obtain ⟨-, hrejected, -, -⟩ := search_decides_acceptance guesser ['a', 'b']
  refine ⟨rfl, ?_, ?_⟩
  · -- a search with room for nine visits accepts after three steps
    have houtcome : (guesser.search ['a', 'b', 'b'] 9).outcome =
        .accepted ⟨"found", [⟨['a', 'b', 'b'], 2, '#'⟩], 3⟩ := by decide +kernel
    obtain ⟨hacc, hreach, -⟩ := haccepted (some 9) _ _ rfl houtcome
    exact hfound ⟨_, _, hreach, hacc⟩
  · have houtcome : (guesser.search ['a', 'b'] 9).outcome = .rejected := by decide +kernel
    exact (hrejected (some 9) _ rfl houtcome).2

end Machine

end Acceptors
