import Acceptors.Goto.Arithmetic
import Acceptors.Goto.Variables

/-!
# Running programs

A run executes statements one at a time until it halts, passes the last statement, fails or has no
step of its budget left. Each statement is reported with the variables as they are before it.

## Main definitions

* `Goto.Instruction.execute`: what one instruction does to the variables and where it leads
* `Goto.Program.advance`: what one statement does in its program
* `Goto.Program.runFrom`, `Goto.Program.run`: runs with a budget
* `Goto.Failure`: what ends a run before it stops
-/

namespace Acceptors.Goto

/-- The number of statements that a run may execute if nothing else is said. -/
def defaultBudget : Nat := 10000

/-- What ends a run before it stops. -/
inductive Failure where
  /-- An operator fails. -/
  | arithmetic (error : ArithmeticError)
  /-- No statement bears the label of a jump. -/
  | unknownLabel (label : String)
  /-- The budget is spent and the statement with the label comes next. -/
  | budgetSpent (budget : Nat) (label : String)
  deriving DecidableEq, Repr

/-- The wording of a failure of an operator. -/
def ArithmeticError.message : ArithmeticError → String
  | divisionByZero l op r =>
    "Division by zero in " ++ toString l ++ " " ++ op.text ++ " " ++ toString r
  | overflow l op r =>
    "Arithmetic overflow in " ++ toString l ++ " " ++ op.text ++ " " ++ toString r

/-- The wording of a failure. -/
def Failure.message : Failure → String
  | arithmetic error => error.message
  | unknownLabel label => "Unknown label: " ++ label
  | budgetSpent budget label =>
    "Step limit of " ++ toString budget ++ " exceeded at label " ++ label

/-! ## One instruction -/

/-- The value of an operand. -/
def Operand.value (vars : Variables) : Operand → Int
  | lit n => n
  | var x => vars.get x

/-- What an instruction leads to. -/
inductive Effect where
  /-- The next statement, with new variables. -/
  | proceed (vars : Variables)
  /-- The statement with the label. -/
  | jump (label : String)
  /-- The end of the run. -/
  | stop
  deriving DecidableEq, Repr

/-- What an instruction leads to with the given variables. -/
def Instruction.execute (vars : Variables) : Instruction → Except ArithmeticError Effect
  | assign x a => .ok (.proceed (vars.set x (a.value vars)))
  | compute x a op b =>
    (op.apply (a.value vars) (b.value vars)).map fun n => .proceed (vars.set x n)
  | jump l => .ok (.jump l)
  | branch a rel b l =>
    if rel.holds (a.value vars) (b.value vars) then .ok (.jump l) else .ok (.proceed vars)
  | halt => .ok .stop

/-! ## Runs -/

/-- The end of a run that stopped: the output, all variables, and the number of executed
statements. -/
structure Execution where
  output : Int
  vars : Variables
  steps : Nat
  deriving DecidableEq, Repr

/-- A run: the executed statements, each with the variables before it, and how it ended. -/
structure Run where
  trace : List (Statement × Variables)
  result : Except Failure Execution

/-- The place of the last statement with the label. -/
def addressIn (label : String) : List Statement → Option Nat
  | [] => none
  | s :: rest =>
    match addressIn label rest with
    | some n => some (n + 1)
    | none => if s.label = label then some 0 else none

namespace Program

section

variable (p : Program)

/-- The place that a jump to the label leads to. -/
def address (label : String) : Except Failure Nat :=
  match addressIn label p.statements with
  | some n => .ok n
  | none => .error (.unknownLabel label)

/-- The end of a run that stops with the given variables. -/
def finish (vars : Variables) (steps : Nat) : Execution :=
  { output := vars.get p.output, vars, steps }

/-- What executing statement `s` at place `pc` leads to: a place and new variables, or nothing if
the run stops. -/
def advance (pc : Nat) (s : Statement) (vars : Variables) :
    Except Failure (Option (Nat × Variables)) :=
  match s.instruction.execute vars with
  | .error e => .error (.arithmetic e)
  | .ok .stop => .ok none
  | .ok (.proceed vars') => .ok (some (pc + 1, vars'))
  | .ok (.jump l) => (p.address l).map fun pc' => some (pc', vars)

/-- The run from place `pc` on, after `steps` statements and with a budget for some more. -/
def runFrom (pc : Nat) (vars : Variables) (steps : Nat) : Nat → Run
  | 0 =>
    match p.statements[pc]? with
    | none => ⟨[], .ok (p.finish vars steps)⟩
    | some s => ⟨[], .error (.budgetSpent steps s.label)⟩
  | budget + 1 =>
    match p.statements[pc]? with
    | none => ⟨[], .ok (p.finish vars steps)⟩
    | some s =>
      match p.advance pc s vars with
      | .error e => ⟨[(s, vars)], .error e⟩
      | .ok none => ⟨[(s, vars)], .ok (p.finish vars (steps + 1))⟩
      | .ok (some (pc', vars')) =>
        let rest := runFrom pc' vars' (steps + 1) budget
        ⟨(s, vars) :: rest.trace, rest.result⟩

/-- The place of the first statement of a run. -/
def entry : Except Failure Nat :=
  match p.start with
  | none => .ok 0
  | some l => p.address l

/-- The run on the given input with a budget. -/
def run (input : Int) (budget : Nat) : Run :=
  match p.entry with
  | .error e => ⟨[], .error e⟩
  | .ok pc => p.runFrom pc (Variables.set [] p.input input) 0 budget

end

end Program

end Acceptors.Goto
