import Mathlib.Data.Nat.Digits.Lemmas
import Mathlib.Data.Nat.Factorial.BigOperators
import Acceptors.Proofs.Goto.Budget
import Acceptors.Proofs.Goto.Rounds
import Acceptors.Proofs.Samples.Contents

/-!
# What the programs of the samples compute

One program halves its input and adds up the bits that fall off. An input below zero is never halved
to zero, so that the budget is spent on it. The other program multiplies descending factors. From 21
on twenty of them are more than a value holds, however large the input is.

## Main definitions

* `ones`: the number of one bits of a number

## Main results

* `popcount_round`, `popcount_stops`, `popcount_reaches`: a round, and where the rounds lead
* `factorial_round`, `factorial_stops`, `factorial_fails`: the same of the factors
* `programs_compute_on_all_values`: the results of both programs
-/

namespace Acceptors.Sample

open Goto Goto.Program Goto.Variables
open scoped Nat

variable {vars : Variables} {x : Int} {f n : Nat}

/-! ## Bits -/

/-- The number of one bits of a number. -/
def ones (n : Nat) : Nat := (Nat.digits 2 n).count 1

theorem ones_of_pos (h : 0 < n) : ones n = n % 2 + ones (n / 2) := by
  unfold ones
  rw [Nat.digits_def' (by decide) h, List.count_cons, Nat.add_comm]
  rcases Nat.mod_two_eq_zero_or_one n with hbit | hbit <;> simp [hbit]

theorem isConsistent_popcountProgram : popcountProgram.IsConsistent :=
  check_eq_ok_iff.mp (rfl : popcountProgram.check = .ok ())

/-- A round takes the last bit off `x` and adds it to `y`. -/
theorem popcount_round (hx : Fits (vars.get "x")) (hne : vars.get "x" ≠ 0)
    (hsum : Fits (vars.get "y" + vars.get "x" % 2)) :
    ∃ vars', popcountProgram.Reaches 5 ⟨0, vars⟩ ⟨0, vars'⟩ ∧
      vars'.get "x" = vars.get "x" / 2 ∧ vars'.get "y" = vars.get "y" + vars.get "x" % 2 := by
  have hbit := Operator.apply_mod_of_pos (r := 2) hx (by decide) (by decide)
  have hhalf := Operator.apply_div_of_pos (r := 2) hx (by decide)
  have hadd : Operator.add.apply (vars.get "y") (vars.get "x" % 2) =
      .ok (vars.get "y" + vars.get "x" % 2) := Operator.apply_of_fits rfl hsum
  refine ⟨((vars.set "b" (vars.get "x" % 2)).set "y" (vars.get "y" + vars.get "x" % 2)).set "x"
    (vars.get "x" / 2), ?_, by simp, by simp [get_set_of_ne]⟩
  have htest : popcountProgram.Step ⟨0, vars⟩ ⟨1, vars⟩ :=
    .passed rfl (decide_eq_false hne)
  have hback : ∀ vars', popcountProgram.Step ⟨4, vars'⟩ ⟨0, vars'⟩ := fun _ => .jump rfl rfl
  refine .head htest (.head (.compute rfl hbit) (.head (.compute rfl ?_) (.head (.compute rfl ?_)
    (.head (hback _) (.refl _)))))
  · simpa [Operand.value, get_set_of_ne] using hadd
  · simpa [Operand.value, get_set_of_ne] using hhalf

/-- The rounds end when nothing is left of `x`, with its one bits added to `y`. -/
theorem popcount_stops (vars : Variables) (hx : vars.get "x" = n) (hfits : Fits n)
    (hy : Fits (vars.get "y" + (Nat.digits 2 n).length)) (hnonneg : 0 ≤ vars.get "y") :
    ∃ k ≤ 5 * (Nat.digits 2 n).length + 2, ∃ vars', popcountProgram.Stops ⟨0, vars⟩ k vars' ∧
      vars'.get "y" = vars.get "y" + ones n := by
  induction n using Nat.strongRecOn generalizing vars with
  | _ n ih =>
    rcases Nat.eq_zero_or_pos n with rfl | hpos
    · have htest : popcountProgram.Step ⟨0, vars⟩ ⟨5, vars⟩ :=
        .taken rfl rfl (decide_eq_true hx)
      exact ⟨2, Nat.le_add_left 2 _, vars, .step htest (.halt rfl), by simp [ones]⟩
    · -- one digit is taken off in each round, and `y` grows by no more than that
      rw [Nat.digits_def' (by decide) hpos, List.length_cons] at hy ⊢
      have hzero : Fits 0 := by decide
      obtain ⟨vars', hround, hx', hy'⟩ :=
        popcount_round (hx ▸ hfits) (by omega) (hzero.between hy (by omega))
      have hhalf : vars'.get "x" = ((n / 2 : Nat) : Int) := by omega
      obtain ⟨k, hk, vars'', hstops, hy''⟩ := ih (n / 2) (Nat.div_lt_self hpos (by decide))
        vars' hhalf (hfits.of_le (Nat.div_le_self n 2)) (hzero.between hy (by omega)) (by omega)
      refine ⟨5 + k, by omega, vars'', hround.stops hstops, ?_⟩
      rw [hy'', hy', hx, ones_of_pos hpos]
      push_cast
      omega

/-- Below zero `x` stays there, so the rounds go on. -/
theorem popcount_reaches (vars : Variables) (n : Nat) (hx : Fits (vars.get "x"))
    (hneg : vars.get "x" < 0) (hy : Fits (vars.get "y")) (hsum : Fits (vars.get "y" + n)) :
    ∃ vars', popcountProgram.Reaches (5 * n) ⟨0, vars⟩ ⟨0, vars'⟩ := by
  induction n generalizing vars with
  | zero => exact ⟨vars, .refl _⟩
  | succ n ih =>
    have hzero : Fits 0 := by decide
    obtain ⟨vars', hround, hx', hy'⟩ := popcount_round hx (by omega) (hy.between hsum (by omega))
    have hneg' : vars'.get "x" < 0 := by omega
    obtain ⟨vars'', hrest⟩ := ih vars' (hx.between hzero (by omega)) hneg'
      (hy.between hsum (by omega)) (hy.between hsum (by omega))
    exact ⟨vars'', by simpa [Nat.mul_succ, Nat.add_comm] using hround.trans hrest⟩

/-! ## Factors -/

theorem isConsistent_factorialProgram : factorialProgram.IsConsistent :=
  check_eq_ok_iff.mp (rfl : factorialProgram.check = .ok ())

theorem factorial_halts (hn : vars.get "n" ≤ 1) : factorialProgram.Stops ⟨1, vars⟩ 2 vars := by
  have htest : factorialProgram.Step ⟨1, vars⟩ ⟨5, vars⟩ := .taken rfl rfl (decide_eq_true hn)
  exact .step htest (.halt rfl)

theorem factorial_goes_on (hn : 2 ≤ vars.get "n") :
    factorialProgram.Step ⟨1, vars⟩ ⟨2, vars⟩ :=
  .passed rfl (decide_eq_false (show ¬ vars.get "n" ≤ 1 by omega))

/-- A round multiplies `f` by `n` and takes one off `n`. -/
theorem factorial_round (hn : Fits (vars.get "n")) (hge : 2 ≤ vars.get "n")
    (hprod : Fits (vars.get "f" * vars.get "n")) :
    ∃ vars', factorialProgram.Reaches 4 ⟨1, vars⟩ ⟨1, vars'⟩ ∧
      vars'.get "n" = vars.get "n" - 1 ∧ vars'.get "f" = vars.get "f" * vars.get "n" := by
  have hzero : Fits 0 := by decide
  have hmul : Operator.mul.apply (vars.get "f") (vars.get "n") =
      .ok (vars.get "f" * vars.get "n") := Operator.apply_of_fits rfl hprod
  have hpred : Fits (vars.get "n" - 1) := hzero.between hn (by omega)
  have hsub : Operator.sub.apply (vars.get "n") 1 = .ok (vars.get "n" - 1) :=
    Operator.apply_of_fits rfl hpred
  refine ⟨(vars.set "f" (vars.get "f" * vars.get "n")).set "n" (vars.get "n" - 1), ?_, by simp,
    by simp [get_set_of_ne]⟩
  have hback : ∀ vars', factorialProgram.Step ⟨4, vars'⟩ ⟨1, vars'⟩ := fun _ => .jump rfl rfl
  refine .head (factorial_goes_on hge) (.head (.compute rfl hmul) (.head (.compute rfl ?_)
    (.head (hback _) (.refl _))))
  simpa [Operand.value, get_set_of_ne] using hsub

/-- The rounds end at one, if the product of all factors is a value. -/
theorem factorial_stops (vars : Variables) (hn : vars.get "n" = n) (hf : vars.get "f" = f)
    (hpos : 0 < f) (hprod : Fits (f * n ! : Nat)) :
    ∃ k ≤ 4 * n + 2, ∃ vars', factorialProgram.Stops ⟨1, vars⟩ k vars' ∧
      vars'.get "f" = (f * n ! : Nat) := by
  induction n generalizing vars f with
  | zero => exact ⟨2, by omega, vars, factorial_halts (by omega), by simp [hf]⟩
  | succ n ih =>
    rcases Nat.eq_zero_or_pos n with rfl | hn0
    · exact ⟨2, by omega, vars, factorial_halts (by omega), by simp [hf]⟩
    · rw [Nat.factorial_succ, ← Nat.mul_assoc] at hprod ⊢
      have hnext : vars.get "f" * vars.get "n" = (f * (n + 1) : Nat) := by
        rw [hf, hn, Nat.cast_mul]
      -- the next product is at most the last one, and so is the factor
      have hproduct : Fits (f * (n + 1) : Nat) :=
        hprod.of_le (Nat.le_mul_of_pos_right _ (Nat.factorial_pos n))
      have hfactor : Fits (n + 1 : Nat) := hproduct.of_le (Nat.le_mul_of_pos_left _ hpos)
      obtain ⟨vars', hround, hn', hf'⟩ := factorial_round (hn ▸ hfactor) (by omega)
        (hnext ▸ hproduct)
      obtain ⟨k, hk, vars'', hstops, hf''⟩ := ih vars' (by omega) (hf'.trans hnext)
        (Nat.mul_pos hpos (Nat.succ_pos n)) hprod
      exact ⟨4 + k, by omega, vars'', hround.stops hstops, hf''⟩

/-- The rounds fail, if the product of some of the factors is no value. -/
theorem factorial_fails (vars : Variables) {j : Nat} (hn : vars.get "n" = n) (hf : vars.get "f" = f)
    (hfits : Fits n) (hj : j < n) (hprod : Fits f) (hover : ¬ Fits (f * n.descFactorial j : Nat)) :
    ∃ k ≤ 4 * j, ∃ l r, factorialProgram.Fails ⟨1, vars⟩ k (.overflow l .mul r) := by
  induction j generalizing vars f n with
  | zero => exact absurd (by simpa using hprod) hover
  | succ j ih =>
    -- this product overflows, or it is handed on to the rounds that are left
    obtain ⟨n, rfl⟩ := Nat.exists_eq_add_one.mpr (Nat.zero_lt_of_lt hj)
    have hge : 2 ≤ vars.get "n" := by omega
    have hnext : vars.get "f" * vars.get "n" = (f * (n + 1) : Nat) := by
      rw [hf, hn, Nat.cast_mul]
    by_cases hfactor : Fits (vars.get "f" * vars.get "n")
    · obtain ⟨vars', hround, hn', hf'⟩ := factorial_round (hn ▸ hfits) hge hfactor
      rw [Nat.succ_descFactorial_succ, ← Nat.mul_assoc] at hover
      obtain ⟨k, hk, l, r, hfails⟩ := ih vars' (by omega) (hf'.trans hnext)
        (hfits.of_le (Nat.le_succ n)) (by omega) (hnext ▸ hfactor) hover
      exact ⟨4 + k, by omega, l, r, hround.fails hfails⟩
    · have hmul : Operator.mul.apply (vars.get "f") (vars.get "n") =
          .error (.overflow (vars.get "f") .mul (vars.get "n")) :=
        Operator.apply_of_not_fits rfl hfactor
      exact ⟨2, by omega, _, _, .step (factorial_goes_on hge) (.here rfl hmul)⟩

/-- From 21 on, twenty descending factors are more than a value holds. -/
theorem not_fits_descFactorial (h : 21 ≤ n) : ¬ Fits (n.descFactorial 20 : Nat) := by
  have hle : Nat.descFactorial 21 20 ≤ n.descFactorial 20 := Nat.descFactorial_le 20 h
  have hlarge : greatestValue < (Nat.descFactorial 21 20 : Nat) := by decide
  rintro ⟨-, hn⟩
  omega

/-! ## Results -/

/-- The number of one bits of a value is what is left of it when its bits have been added up. -/
theorem popcount_of_nonneg (hx : Fits x) (hnonneg : 0 ≤ x) :
    ∃ e, (popcountProgram.run x defaultBudget).result = .ok e ∧ e.output = ones x.toNat := by
  obtain ⟨n, rfl⟩ := Int.eq_ofNat_of_zero_le hnonneg
  have hlen : (Nat.digits 2 n).length ≤ 63 := by
    refine (Nat.digits_length_le_iff (by decide) n).mpr ?_
    have hle : (n : Int) ≤ 9223372036854775807 := hx.2
    omega
  have hlarge : Fits 63 := by decide
  have hsum : Fits (0 + (Nat.digits 2 n).length) := by
    rw [Int.zero_add]
    exact hlarge.of_le hlen
  obtain ⟨k, hk, vars, hstops, hy⟩ :=
    popcount_stops [("x", (n : Int))] rfl hx hsum (Int.le_refl 0)
  have hbudget : k ≤ defaultBudget := hk.trans (by unfold defaultBudget; omega)
  refine ⟨_, result_run_of_stops isConsistent_popcountProgram (.first rfl) hstops hbudget, ?_⟩
  exact hy.trans (Int.zero_add _)

theorem popcount_of_neg (hx : Fits x) (hneg : x < 0) :
    (popcountProgram.run x defaultBudget).result = .error (.budgetSpent defaultBudget "1") := by
  obtain ⟨vars, hreaches⟩ := popcount_reaches [("x", x)] 2000 hx hneg
    (by decide : Fits 0) (by decide : Fits (0 + 2000))
  exact result_run_of_reaches isConsistent_popcountProgram (.first rfl) hreaches rfl

/-- The first statement sets `f`, whatever the input is. -/
theorem factorial_first (x : Int) :
    factorialProgram.Step ⟨0, [("n", x)]⟩ ⟨1, [("f", 1), ("n", x)]⟩ := by
  have hfirst : factorialProgram.Holds 0 (.assign "f" (.lit 1)) := rfl
  exact .assign hfirst

theorem factorial_of_le_one (hle : x ≤ 1) :
    ∃ e, (factorialProgram.run x defaultBudget).result = .ok e ∧ e.output = 1 :=
  ⟨_, result_run_of_stops isConsistent_factorialProgram (.first rfl)
    (.step (factorial_first x) (factorial_halts hle)) (by decide), rfl⟩

theorem factorial_of_le_twenty (hn : n ≤ 20) :
    ∃ e, (factorialProgram.run n defaultBudget).result = .ok e ∧ e.output = (n ! : Nat) := by
  have hlarge : Fits (20 ! : Nat) := by decide
  have hprod : Fits (1 * n ! : Nat) := hlarge.of_le (by rw [Nat.one_mul]; exact Nat.factorial_le hn)
  obtain ⟨k, hk, vars, hstops, hf⟩ :=
    factorial_stops [("f", 1), ("n", (n : Int))] rfl rfl Nat.one_pos hprod
  have hbudget : k + 1 ≤ defaultBudget := by unfold defaultBudget; omega
  refine ⟨_, result_run_of_stops isConsistent_factorialProgram (.first rfl)
    (.step (factorial_first n) hstops) hbudget, ?_⟩
  rw [Nat.one_mul] at hf
  exact hf

theorem factorial_of_large (hfits : Fits n) (hn : 21 ≤ n) :
    ∃ l r, (factorialProgram.run n defaultBudget).result =
      .error (.arithmetic (.overflow l .mul r)) := by
  have hover : ¬ Fits (1 * n.descFactorial 20 : Nat) := by
    rw [Nat.one_mul]
    exact not_fits_descFactorial hn
  obtain ⟨k, hk, l, r, hfails⟩ := factorial_fails [("f", 1), ("n", (n : Int))] rfl rfl hfits
    hn (by decide) hover
  have hbudget : k + 1 ≤ defaultBudget := by unfold defaultBudget; omega
  exact ⟨l, r, result_run_of_fails isConsistent_factorialProgram (.first rfl)
    (.step (factorial_first n) hfails) hbudget⟩

/-- **The programs of the samples are right on all values.** With the budget that is the default,
the first one yields the number of one bits of a value that is not negative, and a negative value
spends the budget. The second one yields one up to one, the factorial from two to twenty, and a
product that is no value from 21 on. -/
theorem programs_compute_on_all_values :
    (∃ d p, definitionOf "popcount" = .ok d ∧ d.automaton = .goto p ∧ ∀ x, Fits x →
      (0 ≤ x → ∃ e, (p.run x defaultBudget).result = .ok e ∧ e.output = ones x.toNat) ∧
      (x < 0 → (p.run x defaultBudget).result = .error (.budgetSpent defaultBudget "1"))) ∧
    (∃ d p, definitionOf "factorial" = .ok d ∧ d.automaton = .goto p ∧ ∀ n, Fits n →
      (n ≤ 1 → ∃ e, (p.run n defaultBudget).result = .ok e ∧ e.output = 1) ∧
      (2 ≤ n → n ≤ 20 →
        ∃ e, (p.run n defaultBudget).result = .ok e ∧ e.output = (n.toNat ! : Nat)) ∧
      (21 ≤ n →
        ∃ l r, (p.run n defaultBudget).result = .error (.arithmetic (.overflow l .mul r)))) := by
  refine ⟨⟨popcountDefinition, popcountProgram,
      definitionOf_stem (s := popcount) (by simp [contents]), rfl,
      fun x hx => ⟨popcount_of_nonneg hx, popcount_of_neg hx⟩⟩,
    ⟨factorialDefinition, factorialProgram,
      definitionOf_stem (s := factorial) (by simp [contents]), rfl,
      fun n hn => ⟨factorial_of_le_one, fun htwo htwenty => ?_, fun hlarge => ?_⟩⟩⟩
  · obtain ⟨n, rfl⟩ := Int.eq_ofNat_of_zero_le (by omega : 0 ≤ n)
    exact factorial_of_le_twenty (by omega)
  · obtain ⟨n, rfl⟩ := Int.eq_ofNat_of_zero_le (by omega : 0 ≤ n)
    exact factorial_of_large hn (by omega)

/-- Seven has three one bits, minus one spends the budget; the factorial of five is 120, that of
minus four is taken to be one, and that of the largest value overflows. -/
theorem programs_compute_on_some_values :
    (∃ d p, definitionOf "popcount" = .ok d ∧ d.automaton = .goto p ∧
      (∃ e, (p.run 7 defaultBudget).result = .ok e ∧ e.output = 3) ∧
      (p.run (-1) defaultBudget).result = .error (.budgetSpent 10000 "1")) ∧
    (∃ d p, definitionOf "factorial" = .ok d ∧ d.automaton = .goto p ∧
      (∃ e, (p.run (-4) defaultBudget).result = .ok e ∧ e.output = 1) ∧
      (∃ e, (p.run 5 defaultBudget).result = .ok e ∧ e.output = 120) ∧
      ∃ l r, (p.run greatestValue defaultBudget).result =
        .error (.arithmetic (.overflow l .mul r))) := by
  obtain ⟨⟨d, p, hd, hp, hpopcount⟩, ⟨d', p', hd', hp', hfactorial⟩⟩ :=
    programs_compute_on_all_values
  have hones : ones 7 = 3 := by simp [ones]
  refine ⟨⟨d, p, hd, hp, ?_, (hpopcount (-1) (by decide)).2 (by decide)⟩,
    ⟨d', p', hd', hp', (hfactorial (-4) (by decide)).1 (by decide),
      (hfactorial 5 (by decide)).2.1 (by decide) (by decide),
      (hfactorial greatestValue (by decide)).2.2 (by decide)⟩⟩
  obtain ⟨e, he, hout⟩ := (hpopcount 7 (by decide)).1 (by decide)
  exact ⟨e, he, hout.trans (congrArg Nat.cast hones)⟩

end Acceptors.Sample
