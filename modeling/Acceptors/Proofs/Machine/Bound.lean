import Acceptors.Proofs.Machine.LevelOrder

/-!
# Bounds of searches

A bound only cuts a search: a search that is cut off has visited as many configurations as the bound
allows, and every smaller bound cuts it off as well. A search that is not cut off finds the same
with every larger bound and with none.

## Main results

* `outcome_search_of_le`: a search that is cut off, and smaller bounds
* `bound_only_cuts`: searches with different bounds and without one
-/

namespace Acceptors

namespace Machine

variable {m : Machine} {w : Word}

/-- What cuts a search off with a bound does so with every smaller bound. -/
theorem outcome_search_of_le {n k explored : Nat} (hkn : k ≤ n)
    (h : (m.search w n).outcome = .exhausted explored) :
    (m.search w k).outcome = .exhausted k := by
  cases houtcome : (m.search w k).outcome with
  | exhausted found => rw [explored_of_explore houtcome, Nat.zero_add]
  | _ =>
    -- a smaller bound that suffices may be raised
    have hends : (m.search w k).outcome.isExhausted = false := by rw [houtcome]; rfl
    rw [← search_of_le m hkn hends, h] at hends
    cases hends

/-- **A bound only cuts a search.** A search that is cut off has visited as many configurations as
its bound, and each smaller bound cuts it off after as many visits as that one. A search that
accepts or rejects does so with the same result for every larger bound and without a bound. -/
theorem bound_only_cuts (m : Machine) (w : Word) (bound : Nat) :
    (∀ explored, (m.search w bound).outcome = .exhausted explored →
      explored = bound ∧ ∀ k ≤ bound, (m.search w k).outcome = .exhausted k) ∧
    (∀ result, (m.search w bound).outcome = result → result.isExhausted = false →
      (∀ k ≥ bound, (m.search w k).outcome = result) ∧
        ∃ e, m.searchAll w = some e ∧ e.outcome = result) := by
  constructor
  · intro explored hcut
    refine ⟨?_, fun k hk => outcome_search_of_le hk hcut⟩
    rw [explored_of_explore hcut, Nat.zero_add]
  · rintro result rfl hends
    refine ⟨fun k hk => ?_, m.search w bound, ?_, rfl⟩
    · rw [search_of_le m hk hends]
    · exact m.searchAll_eq_some_iff.mpr ⟨bound, rfl, hends⟩

/-- The search that finds two `b` after four visits is cut off by every bound below four. -/
theorem guesser_bounds :
    (guesser.search ['b', 'b'] 3).outcome = .exhausted 3 ∧
      (∀ k ≤ 3, (guesser.search ['b', 'b'] k).outcome = .exhausted k) ∧
        ∃ c, (guesser.search ['b', 'b'] 4).outcome = .accepted c ∧
          ∀ k ≥ 4, (guesser.search ['b', 'b'] k).outcome = .accepted c := by
  have hcut : (guesser.search ['b', 'b'] 3).outcome = .exhausted 3 := by decide +kernel
  have hfound : (guesser.search ['b', 'b'] 4).outcome =
      .accepted ⟨"found", [⟨['b', 'b'], 1, '#'⟩], 2⟩ := by decide +kernel
  obtain ⟨hsmaller, -⟩ := bound_only_cuts guesser ['b', 'b'] 3
  obtain ⟨-, hlarger⟩ := bound_only_cuts guesser ['b', 'b'] 4
  exact ⟨hcut, (hsmaller 3 hcut).2, _, hfound, (hlarger _ hfound rfl).1⟩

end Machine

end Acceptors
