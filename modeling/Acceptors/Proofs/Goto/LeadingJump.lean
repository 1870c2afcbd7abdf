import Acceptors.Proofs.Goto.Labels

/-!
# Start labels as leading jumps

A program that starts at a label runs as the program does that has a jump to the label in front of
its statements. All places are one further on there, and the jump is one statement more to execute.
So what is paid for with a budget here is paid for with one more there, and the runs end in the same
way: with the same variables, with the same failure, or cut off at the same statement.

## Main definitions

* `Run.later`: a run that has executed one statement more before
* `Program.IsLed`: a program that has one statement more, in front of the others
* `Program.ledBy`: a program with a jump in front

## Main results

* `Program.IsLed.advance_succ`: what a statement does one place further on
* `Program.IsLed.runFrom_succ`: runs one place further on
* `Program.run_ledBy`: the run that a leading jump begins
* `Program.startLabel_is_leadingJump`: a start label is a leading jump
-/

namespace Acceptors.Goto

/-! ## Runs that begin one statement earlier -/

/-- The end of a run that has executed one statement more before. -/
def Execution.later (e : Execution) : Execution := { e with steps := e.steps + 1 }

/-- What ends a run that has executed one statement more before, with a budget for it. -/
def Failure.later : Failure → Failure
  | budgetSpent budget label => budgetSpent (budget + 1) label
  | f => f

/-- A run that has executed one statement more before, with a budget for it. -/
def Run.later (r : Run) : Run := ⟨r.trace, (r.result.map Execution.later).mapError Failure.later⟩

section

variable {r : Run}

theorem Run.result_later_eq_ok_iff {e' : Execution} :
    r.later.result = .ok e' ↔ ∃ e, r.result = .ok e ∧ e.later = e' := by
  rw [later, mapError_eq_ok_iff, map_eq_ok_iff]

theorem Run.result_later_eq_error_iff {f' : Failure} :
    r.later.result = .error f' ↔ ∃ f, r.result = .error f ∧ f.later = f' := by
  rw [later, mapError_eq_error_iff]
  simp only [map_eq_error_iff]

theorem Failure.later_eq_arithmetic_iff {f : Failure} {e : ArithmeticError} :
    f.later = .arithmetic e ↔ f = .arithmetic e := by
  cases f <;> simp [later]

theorem Failure.later_eq_budgetSpent_iff {f : Failure} {spent : Nat} {label : String} :
    f.later = .budgetSpent spent label ↔
      ∃ budget, budget + 1 = spent ∧ f = .budgetSpent budget label := by
  constructor
  · intro h
    cases f with
    | budgetSpent budget _ =>
      obtain ⟨hspent, rfl⟩ := Failure.budgetSpent.inj h
      exact ⟨budget, hspent, rfl⟩
    | arithmetic _ => cases h
    | unknownLabel _ => cases h
  · rintro ⟨budget, rfl, rfl⟩
    rfl

end

namespace Program

/-! ## One statement more in front -/

/-- The second program has the statement and behind it those of the first one, and the label of the
statement is new. -/
structure IsLed (first : Statement) (p q : Program) : Prop where
  output_eq : q.output = p.output
  statements_eq : q.statements = first :: p.statements
  fresh : first.label ∉ p.labels

theorem addressIn_cons_of_ne {label : String} {s : Statement} (h : s.label ≠ label)
    (l : List Statement) : addressIn label (s :: l) = (addressIn label l).map (· + 1) := by
  rw [addressIn]
  cases addressIn label l with
  | some n => rfl
  | none => exact if_neg h

section

variable {first : Statement} {p q : Program} {n steps budget : Nat} {vars : Variables}
  {label : String}

theorem IsLed.getElem?_succ (h : IsLed first p q) (n : Nat) :
    q.statements[n + 1]? = p.statements[n]? := by
  rw [h.statements_eq, List.getElem?_cons_succ]

theorem IsLed.finish_succ (h : IsLed first p q) :
    q.finish vars (steps + 1) = (p.finish vars steps).later := by
  rw [finish, finish, h.output_eq, Execution.later]

/-- The labels of the program are borne one place further on. -/
theorem IsLed.address_eq (h : IsLed first p q) (hlabel : label ∈ p.labels) :
    q.address label = (p.address label).map (· + 1) := by
  have hne : first.label ≠ label := fun heq => h.fresh (heq ▸ hlabel)
  rw [address, address, h.statements_eq, addressIn_cons_of_ne hne]
  cases addressIn label p.statements <;> rfl

/-- A statement leads one place further on than in the program, and fails in the same way. -/
theorem IsLed.advance_succ (h : IsLed first p q) {st : Statement}
    (htarget : ∀ label, st.instruction.jumpTarget? = some label → label ∈ p.labels) :
    q.advance (n + 1) st vars =
      (p.advance n st vars).map (Option.map (Prod.map (· + 1) id)) := by
  -- only jumps look for a label, and they find it one place further on
  have hjump : ∀ label ∈ p.labels,
      ((q.address label).map fun k => some (k, vars)) =
        ((p.address label).map fun k => some (k, vars)).map (Option.map (Prod.map (· + 1) id)) := by
    intro label hlabel
    rw [h.address_eq hlabel]
    cases p.address label <;> rfl
  unfold advance
  cases hi : st.instruction with
  | assign x a => rfl
  | compute x a op b =>
    rw [Instruction.execute]
    cases op.apply (a.value vars) (b.value vars) <;> rfl
  | jump label => exact hjump label (htarget label (by rw [hi]; rfl))
  | branch a rel b label =>
    rw [Instruction.execute]
    by_cases hr : rel.holds (a.value vars) (b.value vars) = true
    · rw [if_pos hr]
      exact hjump label (htarget label (by rw [hi]; rfl))
    · rw [if_neg hr]
      rfl
  | halt => rfl

/-- **Runs one place further on.** They execute the same statements, and end in the same way. -/
theorem IsLed.runFrom_succ (h : IsLed first p q) (hp : p.IsConsistent) :
    q.runFrom (n + 1) vars (steps + 1) budget = (p.runFrom n vars steps budget).later := by
  -- both runs have the same budget left, and all else changes with each statement
  induction budget generalizing n vars steps with
  | zero =>
    cases hst : p.statements[n]? with
    | none =>
      rw [runFrom_of_past hst, runFrom_of_past ((h.getElem?_succ n).trans hst), h.finish_succ]
      rfl
    | some st =>
      rw [runFrom_zero hst, runFrom_zero ((h.getElem?_succ n).trans hst)]
      rfl
  | succ budget ih =>
    cases hst : p.statements[n]? with
    | none =>
      rw [runFrom_of_past hst, runFrom_of_past ((h.getElem?_succ n).trans hst), h.finish_succ]
      rfl
    | some st =>
      have hst' : q.statements[n + 1]? = some st := (h.getElem?_succ n).trans hst
      have hmem : st ∈ p.statements := List.mem_of_getElem? hst
      have hadv' : q.advance (n + 1) st vars = _ := h.advance_succ fun label hlabel =>
        hp.target_mem label (jumpTarget_mem_targets hmem hlabel)
      rcases hadv : p.advance n st vars with f | (- | ⟨k, vars'⟩)
      · rw [hadv] at hadv'
        rw [runFrom_of_error hst hadv, runFrom_of_error hst' hadv']
        -- it is an operator that fails, and its failure tells no budget
        obtain ⟨e, rfl⟩ := hp.arithmetic_of_advance_eq_error hmem hadv
        rfl
      · rw [hadv] at hadv'
        rw [runFrom_of_halt hst hadv, runFrom_of_halt hst' hadv', h.finish_succ]
        rfl
      · rw [hadv] at hadv'
        rw [runFrom_of_step (s := ⟨n, vars⟩) (t := ⟨k, vars'⟩) hst hadv,
          runFrom_of_step (s := ⟨n + 1, vars⟩) (t := ⟨k + 1, vars'⟩) hst' hadv', ih]
        rfl

/-! ## A jump in front -/

/-- A consistent program may start at each of its labels. -/
theorem IsConsistent.startingAt (hp : p.IsConsistent) (hlabel : label ∈ p.labels) :
    IsConsistent { p with start := some label } where
  input_ne := hp.input_ne
  output_ne := hp.output_ne
  nodup_labels := hp.nodup_labels
  target_mem target htarget := by
    rcases List.mem_append.mp htarget with hjump | hstart
    · exact hp.target_mem target (List.mem_append_left _ hjump)
    · obtain rfl : target = label := by simpa using hstart
      exact hlabel

/-- The program with a jump to the label in front of its statements, which starts with the jump. -/
def ledBy (p : Program) (fresh label : String) : Program :=
  { p with start := none, statements := ⟨fresh, .jump label⟩ :: p.statements }

/-- A jump to one of its labels may be put in front of a consistent program, if the label of the
jump is new. -/
theorem IsConsistent.ledBy (hp : p.IsConsistent) {fresh : String} (hlabel : label ∈ p.labels)
    (hfresh : fresh ∉ p.labels) : (p.ledBy fresh label).IsConsistent where
  input_ne := hp.input_ne
  output_ne := hp.output_ne
  nodup_labels := List.nodup_cons.mpr ⟨hfresh, hp.nodup_labels⟩
  target_mem target htarget := by
    apply List.mem_cons_of_mem
    rcases List.mem_append.mp htarget with hjump | hstart
    · rcases List.mem_cons.mp hjump with rfl | hjump
      · exact hlabel
      · exact hp.target_mem target (List.mem_append_left _ hjump)
    · cases hstart

/-- A run of a consistent program is cut off by the budget that it was given. -/
theorem IsConsistent.spent_eq (hp : p.IsConsistent) {input : Int} {spent : Nat}
    (h : (p.run input budget).result = .error (.budgetSpent spent label)) : spent = budget := by
  obtain ⟨s, hs⟩ := hp.exists_starts input
  rw [hp.run_eq_runFrom hs, hp.result_eq_budgetSpent_iff, Nat.zero_add] at h
  exact h.1

/-- **The run that a leading jump begins.** It reports the jump and then what the run from the label
reports, and it ends as that one does. -/
theorem run_ledBy {q : Program} {fresh : String} (hq : q.IsConsistent)
    (hstart : q.start = some label) (hfresh : fresh ∉ q.labels) (input : Int) (budget : Nat) :
    (q.ledBy fresh label).run input (budget + 1) =
      ⟨(⟨fresh, .jump label⟩, [(q.input, input)]) :: (q.run input budget).trace,
        (q.run input budget).later.result⟩ := by
  have hled : IsLed ⟨fresh, .jump label⟩ q (q.ledBy fresh label) := ⟨rfl, rfl, hfresh⟩
  have htarget : label ∈ q.targets := List.mem_append_right _ (by rw [hstart]; simp)
  obtain ⟨n, hn⟩ := hq.exists_address htarget
  -- both runs come to the place of the label with nothing but the input set
  have hrun : q.run input budget = q.runFrom n [(q.input, input)] 0 budget := by
    rw [run, entry, hstart]
    simp only [hn]
    rfl
  have hadv : (q.ledBy fresh label).advance 0 ⟨fresh, .jump label⟩ [(q.input, input)] =
      .ok (some (n + 1, [(q.input, input)])) := by
    show ((q.ledBy fresh label).address label).map _ = _
    rw [hled.address_eq (hq.target_mem label htarget), hn]
    rfl
  calc (q.ledBy fresh label).run input (budget + 1)
      = (q.ledBy fresh label).runFrom 0 [(q.input, input)] 0 (budget + 1) := rfl
    _ = ⟨(⟨fresh, .jump label⟩, [(q.input, input)]) ::
            ((q.ledBy fresh label).runFrom (n + 1) [(q.input, input)] 1 budget).trace,
          ((q.ledBy fresh label).runFrom (n + 1) [(q.input, input)] 1 budget).result⟩ :=
        runFrom_of_step (s := ⟨0, _⟩) (t := ⟨n + 1, _⟩) rfl hadv
    _ = _ := by rw [hled.runFrom_succ hq, hrun]; rfl

/-- **A start label is a leading jump.** A program that is built can be started at each of its
labels, and instead a jump to that label, which bears a new label itself, can be put in front of it.
The two programs then give the same output and variables, the second one after one statement more;
the same operators fail in both; and both are cut off at the same label, the first one by its budget
and the second one by a budget of one more. -/
theorem startLabel_is_leadingJump {input output fresh : String} {statements : List Statement}
    (hp : ofStatements input output statements = .ok p) (hlabel : label ∈ p.labels)
    (hfresh : fresh ∉ p.labels) :
    ∃ started led, p.startingAt label = .ok started ∧
      ofStatements p.input p.output (⟨fresh, .jump label⟩ :: p.statements) = .ok led ∧
      ∀ value budget,
        (∀ e', (led.run value (budget + 1)).result = .ok e' ↔
          ∃ e, (started.run value budget).result = .ok e ∧
            e'.output = e.output ∧ e'.vars = e.vars ∧ e'.steps = e.steps + 1) ∧
        (∀ e, (led.run value (budget + 1)).result = .error (.arithmetic e) ↔
          (started.run value budget).result = .error (.arithmetic e)) ∧
        (∀ spent label', (led.run value (budget + 1)).result = .error (.budgetSpent spent label') ↔
          spent = budget + 1 ∧
            (started.run value budget).result = .error (.budgetSpent budget label')) ∧
        ∀ spent label', (started.run value budget).result = .error (.budgetSpent spent label') →
          spent = budget := by
  have hcon := isConsistent_of_ofStatements hp
  have hstarted := hcon.startingAt hlabel
  refine ⟨{ p with start := some label }, ledBy { p with start := some label } fresh label,
    map_check_eq_ok_iff.mpr ⟨hstarted, rfl⟩,
    map_check_eq_ok_iff.mpr ⟨hcon.ledBy hlabel hfresh, rfl⟩, fun value budget => ?_⟩
  rw [run_ledBy hstarted rfl hfresh]
  refine ⟨fun e' => ?ok, fun e => ?arithmetic, fun spent label' => ?cut,
    fun spent label' => hstarted.spent_eq⟩
  case ok =>
    rw [Run.result_later_eq_ok_iff]
    constructor
    · rintro ⟨e, he, rfl⟩
      exact ⟨e, he, rfl, rfl, rfl⟩
    · rintro ⟨e, he, houtput, hvars, hsteps⟩
      refine ⟨e, he, ?_⟩
      rw [Execution.later, ← houtput, ← hvars, ← hsteps]
  case arithmetic =>
    simp only [Run.result_later_eq_error_iff, Failure.later_eq_arithmetic_iff, exists_eq_right]
  case cut =>
    rw [Run.result_later_eq_error_iff]
    constructor
    · rintro ⟨f, hf, hlater⟩
      obtain ⟨k, rfl, rfl⟩ := Failure.later_eq_budgetSpent_iff.mp hlater
      obtain rfl := hstarted.spent_eq hf
      exact ⟨rfl, hf⟩
    · rintro ⟨rfl, hf⟩
      exact ⟨_, hf, rfl⟩

end

/-- The countdown from three, with a jump to its start in front, takes twelve statements instead of
eleven. Its division fails for zero, and a budget of one statement pays for the jump only. -/
theorem countdown_led : ∃ led,
    ofStatements "x" "y" (⟨"go", .jump "divide"⟩ :: countdown.statements) = .ok led ∧
      (∃ e', (led.run 3 12).result = .ok e' ∧ e'.output = 12 ∧ e'.steps = 12) ∧
      (led.run 0 12).result = .error (.arithmetic (.divisionByZero 12 .div 0)) ∧
      (led.run 3 1).result = .error (.budgetSpent 1 "divide") := by
  have hplain : ofStatements "x" "y" countdown.statements =
      .ok { countdown with start := none } := rfl
  obtain ⟨started, led, hstarted, hled, hruns⟩ :=
    startLabel_is_leadingJump hplain (by decide : "divide" ∈ _) (by decide : "go" ∉ _)
  obtain rfl : countdown = started := Except.ok.inj hstarted
  refine ⟨led, hled, ⟨⟨12, [("x", 1), ("y", 12)], 12⟩, ?_, rfl, rfl⟩, ?_, ?_⟩
  · exact ((hruns 3 11).1 _).mpr ⟨⟨12, [("x", 1), ("y", 12)], 11⟩, rfl, rfl, rfl, rfl⟩
  · exact ((hruns 0 11).2.1 _).mpr rfl
  · exact ((hruns 3 0).2.2.1 _ _).mpr ⟨rfl, rfl⟩

end Program

end Acceptors.Goto
