import Acceptors.Goto.Arithmetic
import Mathlib.Data.Rat.Floor
import Mathlib.Tactic.Linarith

/-!
# Exact results

What an operator yields on values, beside its result on integers of any size. A quotient is the
floor of a fraction, that is the one whose remainder lies between zero and the divisor. The division
that rounds towards zero leaves a remainder with the sign of the dividend, so one step down is needed
where this is not the sign of the divisor. On values one quotient alone does not fit, that of the
smallest value by minus one, and its remainder is refused with it, although it is zero.

## Main definitions

* `Goto.Operator.exact`: the result of an operator as an integer of any size

## Main results

* `floor_eq_of_remainder`: a floor is determined by its remainder
* `floor_eq_tdiv`, `remainder_eq_tmod`: quotients and remainders moved by one step
* `fits_floor_iff`, `fits_remainder`: which quotients and remainders are values
* `Operator.result?_eq`: what an operator yields on values
* `Operator.apply_yields_exact`: when it fails, and what it yields otherwise
-/

namespace Acceptors.Goto

variable {l r : Int}

/-! ## Quotients and remainders -/

/-- The floor of a fraction is the quotient whose remainder lies between zero and the divisor. -/
theorem floor_eq_of_remainder {q : Int}
    (h : 0 ≤ l - r * q ∧ l - r * q < r ∨ r < l - r * q ∧ l - r * q ≤ 0) :
    ⌊(l : ℚ) / r⌋ = q := by
  rw [Int.floor_eq_iff]
  rcases h with ⟨hnonneg, hlt⟩ | ⟨hlt, hnonpos⟩
  · have hr : (0 : ℚ) < r := by exact_mod_cast (show 0 < r by omega)
    rw [le_div_iff₀ hr, div_lt_iff₀ hr]
    constructor
    · exact_mod_cast (show q * r ≤ l by linarith)
    · exact_mod_cast (show l < (q + 1) * r by linarith)
  · have hr : (r : ℚ) < 0 := by exact_mod_cast (show r < 0 by omega)
    rw [le_div_iff_of_neg hr, div_lt_iff_of_neg hr]
    constructor
    · exact_mod_cast (show l ≤ q * r by linarith)
    · exact_mod_cast (show (q + 1) * r < l by linarith)

/-- Division that rounds towards zero leaves less than the divisor, with the sign of the
dividend. -/
theorem tmod_bounds (l : Int) (hr : r ≠ 0) :
    (l.tmod r).natAbs < r.natAbs ∧ (0 ≤ l → 0 ≤ l.tmod r) ∧ (l ≤ 0 → l.tmod r ≤ 0) := by
  refine ⟨?_, Int.tmod_nonneg r, ?_⟩
  · rw [Int.natAbs_tmod]
    exact Nat.mod_lt _ (Int.natAbs_pos.mpr hr)
  · intro hl
    have hneg := Int.tmod_nonneg r (Int.neg_nonneg_of_nonpos hl)
    rw [Int.neg_tmod] at hneg
    omega

/-- Rounding towards zero moves a quotient up where the signs differ and something is left. -/
theorem floor_eq_tdiv (l : Int) (hr : r ≠ 0) :
    ⌊(l : ℚ) / r⌋ = if l.tmod r ≠ 0 ∧ signsDiffer l r then l.tdiv r - 1 else l.tdiv r := by
  obtain ⟨hlt, hnonneg, hnonpos⟩ := tmod_bounds l hr
  have hdef := Int.tmod_def l r
  apply floor_eq_of_remainder
  split
  · next h =>
    rw [signsDiffer_iff] at h
    have hleft : l - r * (l.tdiv r - 1) = l.tmod r + r := by rw [hdef, Int.mul_sub]; omega
    omega
  · next h =>
    rw [signsDiffer_iff] at h
    omega

theorem signsDiffer_tmod (hr : r ≠ 0) (h : l.tmod r ≠ 0) :
    signsDiffer (l.tmod r) r = signsDiffer l r := by
  obtain ⟨-, hnonneg, hnonpos⟩ := tmod_bounds l hr
  rw [Bool.eq_iff_iff, signsDiffer_iff, signsDiffer_iff]
  omega

/-- What the floor leaves is one divisor more where the quotient is moved. -/
theorem remainder_eq_tmod (l : Int) (hr : r ≠ 0) :
    l - r * ⌊(l : ℚ) / r⌋ =
      if l.tmod r ≠ 0 ∧ signsDiffer (l.tmod r) r then l.tmod r + r else l.tmod r := by
  have hdef := Int.tmod_def l r
  rw [floor_eq_tdiv l hr]
  by_cases h : l.tmod r = 0
  · simp [h, ← hdef]
  · rw [signsDiffer_tmod hr h]
    split
    · rw [hdef, Int.mul_sub]
      omega
    · exact hdef.symm

/-! ## Which of them are values -/

/-- A divisor other than one and minus one at least halves. -/
theorem natAbs_tdiv_le (l : Int) (hr : r ≠ 0) (hone : r ≠ 1) (hneg : r ≠ -1) :
    (l.tdiv r).natAbs ≤ l.natAbs / 2 := by
  rw [Int.natAbs_tdiv]
  exact Nat.div_le_div_left (by omega) (by decide)

theorem fits_tdiv_iff (hl : Fits l) (hr : r ≠ 0) :
    Fits (l.tdiv r) ↔ ¬ (l = leastValue ∧ r = -1) := by
  simp only [Fits, leastValue, greatestValue] at hl ⊢
  by_cases hone : r = 1
  · rw [hone, Int.tdiv_one]
    omega
  · by_cases hneg : r = -1
    · rw [hneg, Int.tdiv_neg, Int.tdiv_one]
      omega
    · have hle := natAbs_tdiv_le l hr hone hneg
      omega

theorem fits_floor_iff (hl : Fits l) (hr : r ≠ 0) :
    Fits ⌊(l : ℚ) / r⌋ ↔ ¬ (l = leastValue ∧ r = -1) := by
  rw [← fits_tdiv_iff hl hr, floor_eq_tdiv l hr]
  split
  · next h =>
    -- one and minus one leave nothing, so a quotient that is moved is at most half the dividend
    have hone : r ≠ 1 := fun hr => h.1 (by rw [hr, Int.tmod_one])
    have hneg : r ≠ -1 := fun hr => h.1 (by rw [hr, Int.tmod_neg, Int.tmod_one])
    have hle := natAbs_tdiv_le l hr hone hneg
    simp only [Fits, leastValue, greatestValue] at hl ⊢
    omega
  · rfl

/-- A remainder lies between zero and the divisor, so it fits. -/
theorem fits_remainder (l : Int) (h : Fits r) (hr : r ≠ 0) : Fits (l - r * ⌊(l : ℚ) / r⌋) := by
  obtain ⟨hlt, -, -⟩ := tmod_bounds l hr
  rw [remainder_eq_tmod l hr]
  simp only [Fits, leastValue, greatestValue] at h ⊢
  split
  · next hdiffer =>
    rw [signsDiffer_iff] at hdiffer
    omega
  · omega

/-! ## Operators -/

namespace Operator

/-- The result of an operator as an integer of any size. A quotient is the floor of the fraction,
and a remainder is what this quotient leaves. -/
def exact : Operator → Int → Int → Int
  | add, l, r => l + r
  | sub, l, r => l - r
  | mul, l, r => l * r
  | div, l, r => ⌊(l : ℚ) / r⌋
  | mod, l, r => l - r * ⌊(l : ℚ) / r⌋

theorem result?_div (hl : Fits l) (hr : r ≠ 0) :
    div.result? l r = asValue? (div.exact l r) := by
  change (asValue? (l.tdiv r)).map _ = asValue? ⌊(l : ℚ) / r⌋
  by_cases h : Fits (l.tdiv r)
  · have hfloor : Fits ⌊(l : ℚ) / r⌋ := (fits_floor_iff hl hr).mpr ((fits_tdiv_iff hl hr).mp h)
    rw [asValue?_of_fits h, asValue?_of_fits hfloor, Option.map_some, floor_eq_tdiv l hr]
  · have hfloor : ¬ Fits ⌊(l : ℚ) / r⌋ := by rwa [fits_floor_iff hl hr, ← fits_tdiv_iff hl hr]
    rw [asValue?_of_not_fits h, asValue?_of_not_fits hfloor, Option.map_none]

theorem result?_mod (hl : Fits l) (hr : Fits r) (hne : r ≠ 0) :
    mod.result? l r =
      if l = leastValue ∧ r = -1 then none else asValue? (mod.exact l r) := by
  change (asValue? (l.tdiv r)).map _ = if _ then none else asValue? (l - r * ⌊(l : ℚ) / r⌋)
  by_cases h : l = leastValue ∧ r = -1
  · have hquotient : ¬ Fits (l.tdiv r) := fun hfits => (fits_tdiv_iff hl hne).mp hfits h
    rw [if_pos h, asValue?_of_not_fits hquotient, Option.map_none]
  · rw [if_neg h, asValue?_of_fits ((fits_tdiv_iff hl hne).mpr h), Option.map_some,
      asValue?_of_fits (fits_remainder l hr hne), remainder_eq_tmod l hne]

/-- On values an operator yields its exact result, but for one remainder. -/
theorem result?_eq {op : Operator} (hl : Fits l) (hr : Fits r)
    (h : ¬ ((op = div ∨ op = mod) ∧ r = 0)) :
    op.result? l r =
      if op = mod ∧ l = leastValue ∧ r = -1 then none else asValue? (op.exact l r) := by
  cases op with
  | add | sub | mul => rfl
  | div => exact result?_div hl fun hzero => h ⟨.inl rfl, hzero⟩
  | mod => simpa using result?_mod hl hr fun hzero => h ⟨.inr rfl, hzero⟩

/-- **Arithmetic on values is exact.** An operator divides by zero if it divides and its divisor is
zero. Otherwise it yields its exact result if this fits, and overflows if it does not; besides, the
remainder of the smallest value by minus one overflows with its quotient. -/
theorem apply_yields_exact (op : Operator) (hl : Fits l) (hr : Fits r) :
    (op.apply l r = .error (.divisionByZero l op r) ↔ (op = div ∨ op = mod) ∧ r = 0) ∧
      (∀ v, op.apply l r = .ok v ↔
        ¬ ((op = div ∨ op = mod) ∧ r = 0) ∧ ¬ (op = mod ∧ l = leastValue ∧ r = -1) ∧
          Fits v ∧ v = op.exact l r) ∧
        (op.apply l r = .error (.overflow l op r) ↔
          ¬ ((op = div ∨ op = mod) ∧ r = 0) ∧
            (¬ Fits (op.exact l r) ∨ op = mod ∧ l = leastValue ∧ r = -1)) := by
  by_cases hzero : (op = div ∨ op = mod) ∧ r = 0
  · rw [apply_of_zero hzero]
    simp [hzero]
  rw [apply_of_not_zero hzero, result?_eq hl hr hzero]
  by_cases hlost : op = mod ∧ l = leastValue ∧ r = -1
  · simp [hlost]
  rw [if_neg hlost]
  by_cases hfits : Fits (op.exact l r)
  · rw [asValue?_of_fits hfits, Option.elim_some]
    refine ⟨by simp [hzero], fun v => ?_, by simp [hlost, hfits]⟩
    rw [Except.ok.injEq]
    constructor
    · rintro rfl
      exact ⟨hzero, hlost, hfits, rfl⟩
    · rintro ⟨-, -, -, rfl⟩
      rfl
  · rw [asValue?_of_not_fits hfits, Option.elim_none]
    refine ⟨by simp [hzero], fun v => ?_, iff_of_true rfl ⟨hzero, .inl hfits⟩⟩
    refine iff_of_false (by simp) ?_
    rintro ⟨-, -, hv, rfl⟩
    exact hfits hv

/-- The largest dividend by minus two is rounded down, and the smallest by minus one has no
quotient. -/
theorem division_at_both_ends :
    (Fits greatestValue ∧ Fits (-2) ∧
      div.apply greatestValue (-2) = .ok (-4611686018427387904)) ∧
        Fits leastValue ∧ Fits (-1) ∧
          div.apply leastValue (-1) = .error (.overflow leastValue div (-1)) := by
  have hgreatest : Fits greatestValue := by decide
  have hleast : Fits leastValue := by decide
  have hminusTwo : Fits (-2) := by decide
  have hminusOne : Fits (-1) := by decide
  have hquotient : div.exact greatestValue (-2) = -4611686018427387904 :=
    floor_eq_of_remainder (by decide)
  have hnone : ¬ Fits (div.exact leastValue (-1)) := by
    rw [exact, fits_floor_iff hleast (by decide)]
    decide
  refine ⟨⟨hgreatest, hminusTwo, ?_⟩, hleast, hminusOne, ?_⟩
  · refine ((apply_yields_exact div hgreatest hminusTwo).2.1 _).mpr ⟨by decide, by decide, ?_⟩
    exact ⟨by decide, hquotient.symm⟩
  · exact (apply_yields_exact div hleast hminusOne).2.2.mpr ⟨by decide, .inl hnone⟩

/-- The remainder of the smallest value by minus one is zero, which fits, and it overflows. -/
theorem remainder_zero_overflows :
    mod.exact leastValue (-1) = 0 ∧ Fits 0 ∧
      mod.apply leastValue (-1) = .error (.overflow leastValue mod (-1)) := by
  have hquotient : ⌊(leastValue : ℚ) / (-1 : Int)⌋ = 9223372036854775808 :=
    floor_eq_of_remainder (by decide)
  refine ⟨?_, by decide, by decide⟩
  rw [exact, hquotient]
  rfl

end Operator

end Acceptors.Goto
