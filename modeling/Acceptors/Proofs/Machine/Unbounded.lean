import Acceptors.Proofs.Machine.Acceptance
import Acceptors.Proofs.Machine.Deterministic

/-!
# Machines without a bound

A machine that decides a word without a bound finds what a search with some bound finds, as soon as
one is not cut off. So it gives a verdict on a word on which no run is infinite, and a deterministic
machine gives the one of its only run. All this is said of machines with room for their tapes.

## Main results

* `simulate_of_outcome`: a search that is not cut off gives the verdict
* `IsDeterministic.simulate_of_haltsAfter`: a deterministic machine whose run halts
* `simulate_of_runsEnd`: a machine that has no infinite run on a word
-/

namespace Acceptors

namespace Machine

variable {m : Machine} {w : Word}

theorem simulate_of_outcome (hroom : m.HasRoom) {bound : Nat} {found : SearchResult}
    (h : (m.search w bound).outcome = found) (hends : found.isExhausted = false) :
    ∃ s, m.simulate w none = some s ∧ s.result = .ok (found.verdict w) := by
  have hall : m.searchAll w = some (m.search w bound) :=
    m.searchAll_eq_some_iff.mpr ⟨bound, rfl, h ▸ hends⟩
  refine ⟨_, by rw [simulate_of_hasRoom w hroom, searchWithin, hall]; rfl, ?_⟩
  exact congrArg (fun o => Except.ok (SearchResult.verdict w o)) h

/-- A deterministic machine whose run halts in the final state accepts where it halts. -/
theorem IsDeterministic.simulate_of_haltsAfter (h : m.IsDeterministic) (hroom : m.HasRoom)
    {k : Nat} {d : Configuration} (hd : m.HaltsAfter (m.initialConfiguration w) k d)
    (hfinal : d.state = m.final) :
    ∃ s, m.simulate w none = some s ∧ s.result = .ok ⟨w, true, .halted d⟩ := by
  have hfound := h.outcome_search_of_haltsAfter hd (Nat.lt_succ_self k)
  rw [halted, if_pos hfinal] at hfound
  exact simulate_of_outcome hroom hfound rfl

/-- A machine gives a verdict if no run is infinite, and accepts if some run does. -/
theorem simulate_of_runsEnd (hroom : m.HasRoom) (h : m.RunsEnd w) :
    ∃ s v, m.simulate w none = some s ∧ s.result = .ok v ∧
      (v.accepted = true ↔ ∃ n d, m.Reaches n (m.initialConfiguration w) d ∧ m.IsAccepting d) := by
  by_cases hacc : ∃ n d, m.Reaches n (m.initialConfiguration w) d ∧ m.IsAccepting d
  · obtain ⟨n, d, hd, haccd⟩ := hacc
    obtain ⟨bound, c, hfound⟩ := exists_bound_accepted hd haccd
    obtain ⟨s, hs, hresult⟩ := simulate_of_outcome hroom (hfound bound (Nat.le_refl bound)) rfl
    exact ⟨s, _, hs, hresult, fun _ => ⟨n, d, hd, haccd⟩, fun _ => rfl⟩
  · obtain ⟨bound, hfound⟩ := exists_bound_rejected (fun n d hd hdacc => hacc ⟨n, d, hd, hdacc⟩) h
    obtain ⟨s, hs, hresult⟩ := simulate_of_outcome hroom (hfound bound (Nat.le_refl bound)) rfl
    exact ⟨s, _, hs, hresult, fun hv => Bool.noConfusion hv, fun hv => absurd hv hacc⟩

end Machine

end Acceptors
