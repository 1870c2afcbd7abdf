import Acceptors.Proofs.Goto.Budget

/-!
# What the reported statements do

A run reports statements with the variables before them. Executed one after the other, and wherever
their jumps would lead, the reported statements lead from the variables at the start to those at the
end: the run and its report tell the same.

## Main definitions

* `Goto.Effect.leaves`, `Goto.Statement.apply`: the variables after an instruction
* `Goto.executeAll`: the variables after statements one after the other
* `Goto.Program.EndsAs`: how the end of a run belongs to the end of its statements

## Main results

* `endsAs_runFrom`: a run ends as its statements do
* `executeAll_take_trace`: the variables that are reported with a statement
* `length_trace_of_budgetSpent`: a run that is cut off has reported its whole budget
-/

namespace Acceptors.Goto

/-- The variables that an instruction leaves behind, wherever it leads. -/
def Effect.leaves (vars : Variables) : Effect → Variables
  | proceed vars' => vars'
  | jump _ => vars
  | stop => vars

/-- The variables after a statement, or how it fails. -/
def Statement.apply (vars : Variables) (s : Statement) : Except ArithmeticError Variables :=
  (s.instruction.execute vars).map (Effect.leaves vars)

/-- The variables after statements that are executed one after the other, or the first failure. -/
def executeAll (vars : Variables) (l : List Statement) : Except ArithmeticError Variables :=
  l.foldlM Statement.apply vars

theorem executeAll_cons {vars vars' : Variables} {s : Statement} (h : s.apply vars = .ok vars')
    (l : List Statement) : executeAll vars (s :: l) = executeAll vars' l := by
  rw [executeAll, List.foldlM_cons, h]
  rfl

theorem executeAll_singleton (vars : Variables) (s : Statement) :
    executeAll vars [s] = s.apply vars := by
  rw [executeAll, List.foldlM_cons]
  cases s.apply vars <;> rfl

namespace Program

section

variable {p : Program} {s : State} {n : Nat} {st : Statement} {vars : Variables}
  {steps budget : Nat}

/-! ## One statement -/

/-- What one statement of a program leaves behind is what it leaves behind on its own. -/
theorem apply_of_advance_eq_ok {next : Option (Nat × Variables)}
    (h : p.advance n st vars = .ok next) :
    st.apply vars = .ok ((next.map Prod.snd).getD vars) := by
  unfold advance at h
  unfold Statement.apply
  rcases hi : st.instruction.execute vars with e | (vars' | label | -)
  all_goals simp only [hi] at h
  · cases h
  · cases h
    rfl
  · obtain ⟨k, -, rfl⟩ := map_eq_ok_iff.mp h
    rfl
  · cases h
    rfl

theorem apply_of_advance_eq_error {f : Failure} (h : p.advance n st vars = .error f) :
    (∃ e, f = .arithmetic e ∧ st.apply vars = .error e) ∨
      (∃ label, f = .unknownLabel label) ∧ st.apply vars = .ok vars := by
  unfold advance at h
  unfold Statement.apply
  rcases hi : st.instruction.execute vars with e | (vars' | label | -)
  all_goals simp only [hi] at h
  · exact .inl ⟨e, (Except.error.inj h).symm, rfl⟩
  · cases h
  · refine .inr ⟨⟨label, ?_⟩, rfl⟩
    unfold address at h
    cases ha : addressIn label p.statements with
    | some k => simp [ha, Except.map] at h
    | none =>
      rw [ha] at h
      exact (Except.error.inj h).symm
  · cases h

/-! ## Runs -/

/-- What holds of the runs that end at once, and is handed on from the rest of a run to the run,
holds of every run. It is said of the state that the run starts in, of the number of statements
before it, and of the run itself. -/
theorem runFrom_induction {motive : State → Nat → Run → Prop}
    (past : ∀ s steps, p.statements[s.place]? = none →
      motive s steps ⟨[], .ok (p.finish s.vars steps)⟩)
    (cut : ∀ s steps st, p.statements[s.place]? = some st →
      motive s steps ⟨[], .error (.budgetSpent steps st.label)⟩)
    (fails : ∀ s steps st f, p.advance s.place st s.vars = .error f →
      motive s steps ⟨[(st, s.vars)], .error f⟩)
    (halts : ∀ s steps st, p.advance s.place st s.vars = .ok none →
      motive s steps ⟨[(st, s.vars)], .ok (p.finish s.vars (steps + 1))⟩)
    (goesOn : ∀ s t steps st run, p.advance s.place st s.vars = .ok (some (t.place, t.vars)) →
      motive t (steps + 1) run → motive s steps ⟨(st, s.vars) :: run.trace, run.result⟩) :
    motive s steps (p.runFrom s.place s.vars steps budget) := by
  induction budget generalizing s steps with
  | zero =>
    cases hst : p.statements[s.place]? with
    | none => exact runFrom_of_past hst ▸ past s steps hst
    | some st => exact runFrom_zero hst ▸ cut s steps st hst
  | succ budget ih =>
    cases hst : p.statements[s.place]? with
    | none => exact runFrom_of_past hst ▸ past s steps hst
    | some st =>
      rcases hadv : p.advance s.place st s.vars with f | (- | ⟨n, vars⟩)
      · exact runFrom_of_error hst hadv ▸ fails s steps st f hadv
      · exact runFrom_of_halt hst hadv ▸ halts s steps st hadv
      · exact runFrom_of_step (t := ⟨n, vars⟩) hst hadv ▸ goesOn s ⟨n, vars⟩ steps st _ hadv ih

/-- The end of a run belongs to the end of its statements: a run that stops has their variables and
the output among them, and a run in which an operator fails has their failure. -/
def EndsAs (p : Program) (executed : Except ArithmeticError Variables) :
    Except Failure Execution → Prop
  | .ok e => executed = .ok e.vars ∧ e.output = e.vars.get p.output
  | .error (.arithmetic e) => executed = .error e
  | .error _ => ∃ vars, executed = .ok vars

/-- A run ends as its statements do. -/
theorem endsAs_runFrom :
    p.EndsAs (executeAll s.vars ((p.runFrom s.place s.vars steps budget).trace.map Prod.fst))
      (p.runFrom s.place s.vars steps budget).result := by
  refine runFrom_induction
    (motive := fun s _ run => p.EndsAs (executeAll s.vars (run.trace.map Prod.fst)) run.result)
    ?past ?cut ?fails ?halts ?goesOn
  case past => exact fun s _ _ => ⟨rfl, rfl⟩
  case cut => exact fun s _ _ _ => ⟨s.vars, rfl⟩
  case fails =>
    -- the statement is reported although it does not lead on
    intro s _ st f hadv
    rw [List.map_singleton, executeAll_singleton]
    rcases apply_of_advance_eq_error hadv with ⟨e, rfl, happly⟩ | ⟨⟨label, rfl⟩, happly⟩
    · exact happly
    · exact ⟨s.vars, happly⟩
  case halts =>
    intro s _ st hadv
    rw [List.map_singleton, executeAll_singleton]
    exact ⟨apply_of_advance_eq_ok hadv, rfl⟩
  case goesOn =>
    intro s t _ st run hadv ih
    rw [List.map_cons, executeAll_cons (apply_of_advance_eq_ok hadv)]
    exact ih

/-- The variables that are reported with a statement are those after the statements before it. -/
theorem executeAll_take_trace {k : Nat} :
    (p.runFrom s.place s.vars steps budget).trace[k]? = some (st, vars) →
      executeAll s.vars (((p.runFrom s.place s.vars steps budget).trace.take k).map Prod.fst) =
        .ok vars := by
  -- the place of the statement counts down along the run, so it is not fixed
  refine runFrom_induction
    (motive := fun s _ run => ∀ k, run.trace[k]? = some (st, vars) →
      executeAll s.vars ((run.trace.take k).map Prod.fst) = .ok vars)
    ?past ?cut ?fails ?halts ?goesOn k
  case past => simp
  case cut => simp
  case fails =>
    intro s _ st' f _ k h
    obtain ⟨rfl, rfl, rfl⟩ : k = 0 ∧ st' = st ∧ s.vars = vars := by
      simpa [List.getElem?_singleton] using h
    rfl
  case halts =>
    intro s _ st' _ k h
    obtain ⟨rfl, rfl, rfl⟩ : k = 0 ∧ st' = st ∧ s.vars = vars := by
      simpa [List.getElem?_singleton] using h
    rfl
  case goesOn =>
    intro s t _ st' run hadv ih k h
    cases k with
    | zero =>
      obtain ⟨rfl, rfl⟩ := Prod.mk.inj (Option.some.inj h)
      rfl
    | succ k =>
      rw [List.take_succ_cons, List.map_cons, executeAll_cons (apply_of_advance_eq_ok hadv)]
      exact ih k h

/-- A run that is cut off has reported as many statements as its budget pays for. -/
theorem length_trace_of_budgetSpent {spent : Nat} {label : String} :
    (p.runFrom s.place s.vars steps budget).result = .error (.budgetSpent spent label) →
      spent = steps + (p.runFrom s.place s.vars steps budget).trace.length := by
  refine runFrom_induction
    (motive := fun _ steps run => run.result = .error (.budgetSpent spent label) →
      spent = steps + run.trace.length)
    ?past ?cut ?fails ?halts ?goesOn
  case past => simp
  case cut =>
    intro _ steps st _ h
    obtain ⟨rfl, -⟩ := Failure.budgetSpent.inj (Except.error.inj h)
    rfl
  case fails =>
    -- a statement that fails does not spend the budget
    intro _ _ st f hadv h
    obtain rfl : f = .budgetSpent spent label := Except.error.inj h
    rcases apply_of_advance_eq_error hadv with ⟨e, he, -⟩ | ⟨⟨label, hlabel⟩, -⟩
    · cases he
    · cases hlabel
  case halts => simp
  case goesOn =>
    intro _ _ steps st run _ ih h
    rw [List.length_cons, ih h]
    omega

end

end Program

end Acceptors.Goto
