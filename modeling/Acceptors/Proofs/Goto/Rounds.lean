import Acceptors.Proofs.Goto.Budget
import Acceptors.Proofs.Goto.Exact

/-!
# Rounds of programs

A loop is followed round by round. Each round leads from the head of the loop back to it, and the
rounds are put in front of what follows them, be it that the program stops, fails or goes on. The
operators on the way yield their exact results as long as these are values.

## Main results

* `Program.Reaches.trans`, `Program.Reaches.stops`, `Program.Reaches.fails`: rounds before the rest
* `result_run_of_stops`, `result_run_of_fails`, `result_run_of_reaches`: the results of runs
* `Fits.between`, `Fits.of_le`: what lies between values is a value
* `Operator.apply_of_fits`, `Operator.apply_of_not_fits`: an exact result, or an overflow
* `Operator.apply_div_of_pos`, `Operator.apply_mod_of_pos`: quotients by a positive divisor
-/

namespace Acceptors.Goto

namespace Program

variable {p : Program} {s t u : State} {n k budget : Nat} {vars : Variables} {e : ArithmeticError}

/-! ## Rounds before the rest -/

theorem Reaches.trans (h : p.Reaches n s t) (rest : p.Reaches k t u) : p.Reaches (n + k) s u := by
  induction h with
  | refl => simpa using rest
  | head first _ ih =>
    rw [Nat.add_right_comm]
    exact .head first (ih rest)

theorem Reaches.stops (h : p.Reaches n s t) (rest : p.Stops t k vars) : p.Stops s (n + k) vars := by
  induction h with
  | refl => simpa using rest
  | head first _ ih =>
    rw [Nat.add_right_comm]
    exact .step first (ih rest)

theorem Reaches.fails (h : p.Reaches n s t) (rest : p.Fails t k e) : p.Fails s (n + k) e := by
  induction h with
  | refl => simpa using rest
  | head first _ ih =>
    rw [Nat.add_right_comm]
    exact .step first (ih rest)

/-! ## Results of runs -/

section

variable {input : Int} (hp : p.IsConsistent) (hs : p.Starts input s)

include hp hs

theorem result_run_of_stops (h : p.Stops s k vars) (hk : k ≤ budget) :
    (p.run input budget).result = .ok (p.finish vars k) := by
  rw [hp.run_eq_runFrom hs, result_of_stops hp h hk, Nat.zero_add]

theorem result_run_of_fails (h : p.Fails s k e) (hk : k ≤ budget) :
    (p.run input budget).result = .error (.arithmetic e) := by
  rw [hp.run_eq_runFrom hs, result_of_fails hp h hk]

theorem result_run_of_reaches (h : p.Reaches budget s t) {label : String}
    (hlabel : p.Bears t.place label) :
    (p.run input budget).result = .error (.budgetSpent budget label) := by
  rw [hp.run_eq_runFrom hs, result_of_reaches hp h hlabel, Nat.zero_add]

end

end Program

/-! ## Values and operators -/

variable {l r : Int}

theorem Fits.between {n : Int} (hl : Fits l) (hr : Fits r) (h : l ≤ n ∧ n ≤ r) : Fits n :=
  ⟨hl.1.trans h.1, h.2.trans hr.2⟩

theorem Fits.of_le {k n : Nat} (h : Fits n) (hk : k ≤ n) : Fits k := by
  have hzero : Fits 0 := by decide
  exact hzero.between h (by omega)

namespace Operator

variable {op : Operator}

theorem result?_of_not_divides (hop : op.divides = false) :
    op.result? l r = asValue? (op.exact l r) := by
  cases op with
  | add | sub | mul => rfl
  | div | mod => cases hop

theorem not_zero_of_not_divides (hop : op.divides = false) : ¬ ((op = div ∨ op = mod) ∧ r = 0) := by
  rw [← divides_iff, hop]
  simp

/-- An operator that does not divide yields its exact result if this fits. -/
theorem apply_of_fits (hop : op.divides = false) (h : Fits (op.exact l r)) :
    op.apply l r = .ok (op.exact l r) := by
  rw [apply_of_not_zero (not_zero_of_not_divides hop), result?_of_not_divides hop,
    asValue?_of_fits h]
  rfl

theorem apply_of_not_fits (hop : op.divides = false) (h : ¬ Fits (op.exact l r)) :
    op.apply l r = .error (.overflow l op r) := by
  rw [apply_of_not_zero (not_zero_of_not_divides hop), result?_of_not_divides hop,
    asValue?_of_not_fits h]
  rfl

/-- By a positive divisor the floor of the fraction is the quotient of the integers. -/
theorem floor_eq_ediv (hpos : 0 < r) : ⌊(l : ℚ) / r⌋ = l / r := by
  have hnonneg := Int.emod_nonneg l (Int.ne_of_gt hpos)
  have hlt := Int.emod_lt_of_pos l hpos
  exact floor_eq_of_remainder (.inl (by rw [← Int.emod_def]; exact ⟨hnonneg, hlt⟩))

theorem apply_div_of_pos (hl : Fits l) (hpos : 0 < r) : div.apply l r = .ok (l / r) := by
  have hfits : Fits (div.exact l r) := (fits_floor_iff hl (by omega)).mpr (by omega)
  rw [apply_of_not_zero (by omega), result?_div hl (by omega), asValue?_of_fits hfits, exact,
    floor_eq_ediv hpos]
  rfl

theorem apply_mod_of_pos (hl : Fits l) (hr : Fits r) (hpos : 0 < r) :
    mod.apply l r = .ok (l % r) := by
  have hfits : Fits (mod.exact l r) := fits_remainder l hr (by omega)
  rw [apply_of_not_zero (by omega), result?_mod hl hr (by omega), if_neg (by omega),
    asValue?_of_fits hfits, exact, floor_eq_ediv hpos, ← Int.emod_def]
  rfl

end Operator

end Acceptors.Goto
