import Acceptors.Proofs.Goto.Consistency

/-!
# Runs with a budget

A run with a budget follows the steps of the program. It stops, fails or is cut off where the steps
stop, fail or go on behind the last statement that the budget pays for, and it reports the
statements that were executed on the way. A statement is paid for before it is reported and
executed, so a program that stops with the last statement of its budget has stopped, while one that
has a statement left is cut off.

## Main definitions

* `Program.Accounts`: how the steps account for the result of a run

## Main results

* `runFrom_of_past`, `runFrom_of_halt`, `runFrom_of_step`, …: one statement of a run
* `result_of_stops`, `result_of_fails`, `result_of_reaches`: runs that follow the steps
* `IsConsistent.accounts`: the steps account for every result
* `IsConsistent.getElem?_trace_iff`: the reported statements
* `run_follows_steps`: all of it for runs from the start
-/

namespace Acceptors.Goto

namespace Program

section

variable {p : Program} {s t : State} {st : Statement} {vars : Variables} {steps budget k n : Nat}

/-! ## One statement of a run -/

theorem runFrom_of_past (h : p.statements[n]? = none) :
    p.runFrom n vars steps budget = ⟨[], .ok (p.finish vars steps)⟩ := by
  cases budget <;> simp [runFrom, h]

theorem runFrom_zero (h : p.statements[n]? = some st) :
    p.runFrom n vars steps 0 = ⟨[], .error (.budgetSpent steps st.label)⟩ := by
  simp [runFrom, h]

theorem runFrom_of_error (h : p.statements[n]? = some st) {f : Failure}
    (hadv : p.advance n st vars = .error f) :
    p.runFrom n vars steps (budget + 1) = ⟨[(st, vars)], .error f⟩ := by
  simp [runFrom, h, hadv]

theorem runFrom_of_halt (h : p.statements[n]? = some st)
    (hadv : p.advance n st vars = .ok none) :
    p.runFrom n vars steps (budget + 1) = ⟨[(st, vars)], .ok (p.finish vars (steps + 1))⟩ := by
  simp [runFrom, h, hadv]

theorem runFrom_of_step (h : p.statements[s.place]? = some st)
    (hadv : p.advance s.place st s.vars = .ok (some (t.place, t.vars))) :
    p.runFrom s.place s.vars steps (budget + 1) =
      ⟨(st, s.vars) :: (p.runFrom t.place t.vars (steps + 1) budget).trace,
        (p.runFrom t.place t.vars (steps + 1) budget).result⟩ := by
  simp [runFrom, h, hadv]

/-! ## Runs that follow the steps -/

theorem result_of_step (hp : p.IsConsistent) (h : p.Step s t) :
    (p.runFrom s.place s.vars steps (budget + 1)).result =
      (p.runFrom t.place t.vars (steps + 1) budget).result := by
  obtain ⟨st, hst, hadv⟩ := (step_iff_advance hp.nodup_labels).mp h
  rw [runFrom_of_step hst hadv]

/-- A run stops where the program stops, if the budget pays for it. -/
theorem result_of_stops (hp : p.IsConsistent) (h : p.Stops s k vars) (hk : k ≤ budget) :
    (p.runFrom s.place s.vars steps budget).result = .ok (p.finish vars (steps + k)) := by
  induction h generalizing steps budget with
  | past here => rw [runFrom_of_past here, Nat.add_zero]
  | halt here =>
    obtain ⟨st, hst, hi⟩ := Option.map_eq_some_iff.mp here
    obtain ⟨budget, rfl⟩ := Nat.exists_eq_add_one.mpr (by omega : 0 < budget)
    rw [runFrom_of_halt hst (advance_eq_none_iff.mpr hi)]
  | step first _ ih =>
    obtain ⟨budget, rfl⟩ := Nat.exists_eq_add_one.mpr (by omega : 0 < budget)
    rw [result_of_step hp first, ih (by omega), Nat.add_assoc, Nat.add_comm 1]

/-- A run fails where the program fails, if the budget pays for it. -/
theorem result_of_fails (hp : p.IsConsistent) {e : ArithmeticError} (h : p.Fails s k e)
    (hk : k ≤ budget) :
    (p.runFrom s.place s.vars steps budget).result = .error (.arithmetic e) := by
  induction h generalizing steps budget with
  | here here result =>
    obtain ⟨st, hst, hi⟩ := Option.map_eq_some_iff.mp here
    obtain ⟨budget, rfl⟩ := Nat.exists_eq_add_one.mpr (by omega : 0 < budget)
    rw [runFrom_of_error hst (advance_eq_arithmetic_iff.mpr ⟨_, _, _, _, hi, result⟩)]
  | step first _ ih =>
    obtain ⟨budget, rfl⟩ := Nat.exists_eq_add_one.mpr (by omega : 0 < budget)
    rw [result_of_step hp first, ih (by omega)]

/-- A run is cut off where a statement is left behind those that the budget pays for. -/
theorem result_of_reaches (hp : p.IsConsistent) (h : p.Reaches budget s t) {label : String}
    (hlabel : p.Bears t.place label) :
    (p.runFrom s.place s.vars steps budget).result =
      .error (.budgetSpent (steps + budget) label) := by
  induction h generalizing steps with
  | refl s =>
    obtain ⟨st, hst, rfl⟩ := Option.map_eq_some_iff.mp hlabel
    rw [runFrom_zero hst, Nat.add_zero]
  | head first _ ih => rw [result_of_step hp first, ih hlabel, Nat.add_assoc, Nat.add_comm 1]

/-! ## What a result says about the steps -/

theorem step_of_advance (hp : p.IsConsistent) (hst : p.statements[s.place]? = some st)
    (hadv : p.advance s.place st s.vars = .ok (some (t.place, t.vars))) : p.Step s t :=
  (step_iff_advance hp.nodup_labels).mpr ⟨st, hst, hadv⟩

/-- How the steps from a state account for the result of a run that has executed `steps` statements
before and has a budget for some more. -/
inductive Accounts (p : Program) (s : State) (steps budget : Nat) :
    Except Failure Execution → Prop where
  | stops {k : Nat} {vars : Variables} (hk : k ≤ budget) (h : p.Stops s k vars) :
    Accounts p s steps budget (.ok (p.finish vars (steps + k)))
  | fails {k : Nat} {e : ArithmeticError} (hk : k ≤ budget) (h : p.Fails s k e) :
    Accounts p s steps budget (.error (.arithmetic e))
  | spent {t : State} {label : String} (h : p.Reaches budget s t) (hlabel : p.Bears t.place label) :
    Accounts p s steps budget (.error (.budgetSpent (steps + budget) label))

/-- What accounts for the rest of a run accounts for the run with one more step in front. -/
theorem Accounts.step {result : Except Failure Execution} (first : p.Step s t)
    (h : p.Accounts t (steps + 1) budget result) : p.Accounts s steps (budget + 1) result := by
  cases h with
  | stops hk h =>
    rw [Nat.add_assoc, Nat.add_comm 1]
    exact .stops (by omega) (.step first h)
  | fails hk h => exact .fails (by omega) (.step first h)
  | spent h hlabel =>
    rw [Nat.add_assoc, Nat.add_comm 1]
    exact .spent (.head first h) hlabel

/-- The steps of a consistent program account for every run. -/
theorem IsConsistent.accounts (hp : p.IsConsistent) (s : State) (steps budget : Nat) :
    p.Accounts s steps budget (p.runFrom s.place s.vars steps budget).result := by
  induction budget generalizing s steps with
  | zero =>
    cases hst : p.statements[s.place]? with
    | none =>
      rw [runFrom_of_past hst]
      exact .stops (Nat.le_refl 0) (.past hst)
    | some st =>
      rw [runFrom_zero hst]
      exact .spent (.refl s) (by simp [Bears, hst])
  | succ budget ih =>
    cases hst : p.statements[s.place]? with
    | none =>
      rw [runFrom_of_past hst]
      exact .stops (Nat.zero_le _) (.past hst)
    | some st =>
      have hholds : p.Holds s.place st.instruction := by simp [Holds, hst]
      cases hadv : p.advance s.place st s.vars with
      | error f =>
        rw [runFrom_of_error hst hadv]
        -- the labels are there, so only an operator can fail
        obtain ⟨e, rfl⟩ := hp.arithmetic_of_advance_eq_error (List.mem_of_getElem? hst) hadv
        obtain ⟨x, a, op, b, hi, hv⟩ := advance_eq_arithmetic_iff.mp hadv
        exact .fails (Nat.le_add_left 1 _) (.here (hi ▸ hholds) hv)
      | ok next =>
        cases next with
        | none =>
          rw [runFrom_of_halt hst hadv]
          exact .stops (Nat.le_add_left 1 _) (.halt (advance_eq_none_iff.mp hadv ▸ hholds))
        | some next =>
          rw [runFrom_of_step (t := ⟨next.1, next.2⟩) hst hadv]
          exact .step (step_of_advance hp hst hadv) (ih ⟨next.1, next.2⟩ (steps + 1))

theorem IsConsistent.result_eq_ok_iff (hp : p.IsConsistent) {e : Execution} :
    (p.runFrom s.place s.vars steps budget).result = .ok e ↔
      ∃ k, k ≤ budget ∧ p.Stops s k e.vars ∧ p.finish e.vars (steps + k) = e := by
  constructor
  · intro h
    have hacc := hp.accounts s steps budget
    rw [h] at hacc
    cases hacc with
    | stops hk hstops => exact ⟨_, hk, hstops, rfl⟩
  · rintro ⟨k, hk, hstops, he⟩
    rw [result_of_stops hp hstops hk, he]

theorem IsConsistent.result_eq_arithmetic_iff (hp : p.IsConsistent) {e : ArithmeticError} :
    (p.runFrom s.place s.vars steps budget).result = .error (.arithmetic e) ↔
      ∃ k, k ≤ budget ∧ p.Fails s k e := by
  constructor
  · intro h
    have hacc := hp.accounts s steps budget
    rw [h] at hacc
    cases hacc with
    | fails hk hfails => exact ⟨_, hk, hfails⟩
  · rintro ⟨k, hk, hfails⟩
    exact result_of_fails hp hfails hk

theorem IsConsistent.result_eq_budgetSpent_iff (hp : p.IsConsistent) {spent : Nat}
    {label : String} :
    (p.runFrom s.place s.vars steps budget).result = .error (.budgetSpent spent label) ↔
      spent = steps + budget ∧ ∃ t, p.Reaches budget s t ∧ p.Bears t.place label := by
  constructor
  · intro h
    have hacc := hp.accounts s steps budget
    rw [h] at hacc
    cases hacc with
    | spent hreaches hlabel => exact ⟨rfl, _, hreaches, hlabel⟩
  · rintro ⟨rfl, t, hreaches, hlabel⟩
    exact result_of_reaches hp hreaches hlabel

theorem IsConsistent.result_ne_unknownLabel (hp : p.IsConsistent) {label : String} :
    (p.runFrom s.place s.vars steps budget).result ≠ .error (.unknownLabel label) := by
  intro h
  have hacc := hp.accounts s steps budget
  rw [h] at hacc
  cases hacc

/-! ## The reported statements -/

theorem trace_runFrom_zero : (p.runFrom n vars steps 0).trace = [] := by
  cases hst : p.statements[n]? with
  | none => rw [runFrom_of_past hst]
  | some st => rw [runFrom_zero hst]

/-- A statement that the steps come to is reported, if the budget pays for it. -/
theorem getElem?_trace_of_reaches (hp : p.IsConsistent) (h : p.Reaches k s t)
    (hst : p.statements[t.place]? = some st) (hk : k < budget) :
    (p.runFrom s.place s.vars steps budget).trace[k]? = some (st, t.vars) := by
  obtain ⟨budget, rfl⟩ := Nat.exists_eq_add_one.mpr (by omega : 0 < budget)
  induction h generalizing steps budget with
  | refl s =>
    cases hadv : p.advance s.place st s.vars with
    | error f => rw [runFrom_of_error hst hadv]; rfl
    | ok next =>
      cases next with
      | none => rw [runFrom_of_halt hst hadv]; rfl
      | some next => rw [runFrom_of_step (t := ⟨next.1, next.2⟩) hst hadv]; rfl
  | head first _ ih =>
    obtain ⟨budget, rfl⟩ := Nat.exists_eq_add_one.mpr (by omega : 0 < budget)
    obtain ⟨st', hst', hadv⟩ := (step_iff_advance hp.nodup_labels).mp first
    rw [runFrom_of_step hst' hadv, List.getElem?_cons_succ]
    exact ih hst budget (by omega)

/-- A reported statement is one that the steps come to. -/
theorem reaches_of_getElem?_trace (hp : p.IsConsistent)
    (h : (p.runFrom s.place s.vars steps budget).trace[k]? = some (st, vars)) :
    k < budget ∧ ∃ n, p.Reaches k s ⟨n, vars⟩ ∧ p.statements[n]? = some st := by
  induction budget generalizing s steps k with
  | zero => simp [trace_runFrom_zero] at h
  | succ budget ih =>
    cases hst' : p.statements[s.place]? with
    | none => simp [runFrom_of_past hst'] at h
    | some st' =>
      cases k with
      | zero =>
        -- the first statement is reported, whatever it leads to
        rw [getElem?_trace_of_reaches hp (.refl s) hst' (Nat.zero_lt_succ _)] at h
        obtain ⟨rfl, rfl⟩ := Prod.mk.inj (Option.some.inj h)
        exact ⟨Nat.zero_lt_succ _, s.place, .refl s, hst'⟩
      | succ k =>
        cases hadv : p.advance s.place st' s.vars with
        | error f => simp [runFrom_of_error hst' hadv] at h
        | ok next =>
          cases next with
          | none => simp [runFrom_of_halt hst' hadv] at h
          | some next =>
            rw [runFrom_of_step (t := ⟨next.1, next.2⟩) hst' hadv, List.getElem?_cons_succ] at h
            obtain ⟨hk, n, hreaches, hst⟩ := ih h
            exact ⟨by omega, n, .head (step_of_advance hp hst' hadv) hreaches, hst⟩

theorem IsConsistent.getElem?_trace_iff (hp : p.IsConsistent) :
    (p.runFrom s.place s.vars steps budget).trace[k]? = some (st, vars) ↔
      k < budget ∧ ∃ n, p.Reaches k s ⟨n, vars⟩ ∧ p.statements[n]? = some st := by
  constructor
  · exact reaches_of_getElem?_trace hp
  · rintro ⟨hk, n, hreaches, hst⟩
    exact getElem?_trace_of_reaches hp hreaches hst hk

/-! ## Runs from the start -/

theorem IsConsistent.run_eq_runFrom (hp : p.IsConsistent) {input : Int} (hs : p.Starts input s) :
    p.run input budget = p.runFrom s.place s.vars 0 budget := by
  obtain ⟨hentry, hvars⟩ := hp.starts_iff.mp hs
  rw [run, hentry, hvars]
  rfl

/-- A run of a consistent program never looks for a label in vain. -/
theorem IsConsistent.run_ne_unknownLabel (hp : p.IsConsistent) (input : Int) (budget : Nat)
    (label : String) : (p.run input budget).result ≠ .error (.unknownLabel label) := by
  obtain ⟨s, hs⟩ := hp.exists_starts input
  rw [hp.run_eq_runFrom hs]
  exact hp.result_ne_unknownLabel

/-- **A run with a budget follows the steps of its program.** There is a state to start in, at the
start label or else the first statement and with nothing but the input set. The run gives an output
exactly if the program stops within the budget, with the variables and the number of executed
statements that it stops with. It reports the failure of an operator exactly if the program fails
within the budget, and it is cut off, with the label of the next statement, exactly if the program
executes all statements of the budget and has come to another one. No label is ever missing, and
the reported statements are those executed, each with the variables before it. -/
theorem run_follows_steps (hp : p.Built) (input : Int) (budget : Nat) :
    (∃ s, p.Starts input s) ∧ ∀ s, p.Starts input s →
      (∀ e, (p.run input budget).result = .ok e ↔
        e.steps ≤ budget ∧ p.Stops s e.steps e.vars ∧ e.output = e.vars.get p.output) ∧
      (∀ e, (p.run input budget).result = .error (.arithmetic e) ↔
        ∃ k, k ≤ budget ∧ p.Fails s k e) ∧
      (∀ spent label, (p.run input budget).result = .error (.budgetSpent spent label) ↔
        spent = budget ∧ ∃ t, p.Reaches budget s t ∧ p.Bears t.place label) ∧
      (∀ label, (p.run input budget).result ≠ .error (.unknownLabel label)) ∧
      ∀ k st vars, (p.run input budget).trace[k]? = some (st, vars) ↔
        k < budget ∧ ∃ n, p.Reaches k s ⟨n, vars⟩ ∧ p.statements[n]? = some st := by
  have hcon := hp.isConsistent
  refine ⟨hcon.exists_starts input, fun s hs => ?_⟩
  rw [hcon.run_eq_runFrom hs]
  refine ⟨fun e => ?_, fun e => hcon.result_eq_arithmetic_iff, fun spent label => ?_,
    fun label => hcon.result_ne_unknownLabel, fun k st vars => hcon.getElem?_trace_iff⟩
  · rw [hcon.result_eq_ok_iff]
    constructor
    · rintro ⟨k, hk, hstops, he⟩
      have hout : e.vars.get p.output = e.output := congrArg Execution.output he
      obtain rfl : k = e.steps := by simpa [finish] using congrArg Execution.steps he
      exact ⟨hk, hstops, hout.symm⟩
    · rintro ⟨hk, hstops, hout⟩
      refine ⟨e.steps, hk, hstops, ?_⟩
      rw [finish, ← hout, Nat.zero_add]
  · rw [hcon.result_eq_budgetSpent_iff, Nat.zero_add]

end

/-- Divides by the input, by one less and so on, down to one. -/
def countdown : Program where
  input := "x"
  output := "y"
  start := some "divide"
  statements := [
    ⟨"skipped", .assign "y" (.lit 100)⟩,
    ⟨"divide", .compute "y" (.lit 12) .div (.var "x")⟩,
    ⟨"test", .branch (.var "x") .le (.lit 1) "end"⟩,
    ⟨"next", .compute "x" (.var "x") .sub (.lit 1)⟩,
    ⟨"again", .jump "divide"⟩,
    ⟨"end", .halt⟩]

theorem countdown_follows : countdown.Built ∧
    (∃ s, countdown.Starts 3 s ∧ countdown.Stops s 11 [("x", 1), ("y", 12)]) ∧
    (∃ s, countdown.Starts 3 s ∧ ∃ t, countdown.Reaches 10 s t ∧ countdown.Bears t.place "end") ∧
    ∃ s, countdown.Starts 0 s ∧ ∃ k, k ≤ 1 ∧ countdown.Fails s k (.divisionByZero 12 .div 0) := by
  have hplain : ofStatements "x" "y" countdown.statements =
      .ok { countdown with start := none } := rfl
  have hp : countdown.Built := .startingAt (.ofStatements hplain) (rfl : startingAt _ "divide" = _)
  refine ⟨hp, ?_, ?_, ?_⟩
  -- the budget of eleven statements just suffices
  · obtain ⟨⟨s, hs⟩, h⟩ := run_follows_steps hp 3 11
    exact ⟨s, hs, (((h s hs).1 ⟨12, [("x", 1), ("y", 12)], 11⟩).mp rfl).2.1⟩
  -- with one less, the last statement is left
  · obtain ⟨⟨s, hs⟩, h⟩ := run_follows_steps hp 3 10
    exact ⟨s, hs, (((h s hs).2.2.1 10 "end").mp rfl).2⟩
  · obtain ⟨⟨s, hs⟩, h⟩ := run_follows_steps hp 0 1
    exact ⟨s, hs, ((h s hs).2.1 (.divisionByZero 12 .div 0)).mp rfl⟩

end Program

end Acceptors.Goto
