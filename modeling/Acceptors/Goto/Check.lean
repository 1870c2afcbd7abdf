import Acceptors.Defect
import Acceptors.Distinct
import Acceptors.Goto.Basic
import Acceptors.Ordered

/-!
# Checking programs

## Main definitions

* `Goto.Program.check`: the first defect of a program
* `Goto.Program.ofStatements`, `Goto.Program.startingAt`: programs that are checked
-/

namespace Acceptors.Goto

namespace Program

section

variable (p : Program)

/-- The labels of the statements. -/
def labels : List String := p.statements.map Statement.label

/-- The labels that the program may go to, the start label last. -/
def targets : List String :=
  p.statements.filterMap (fun s => s.instruction.jumpTarget?) ++ p.start.toList

/-- The labels that the program may go to and no statement bears, in increasing order. -/
def undefinedTargets : List String := ascending (p.targets.filter fun l => !p.labels.contains l)

/-- The first defect of a program: unnamed variables, then labels that several statements bear,
then labels that none bears. -/
def check : Except Defect Unit :=
  if p.input.isEmpty || p.output.isEmpty then
    .error (.structural "Input and output variables must be named")
  else if repeated p.labels ≠ [] then .error (.duplicateLabels (repeated p.labels))
  else if p.undefinedTargets ≠ [] then .error (.undefinedLabels p.undefinedTargets)
  else .ok ()

end

/-- The program with the given statements, if it has no defect. -/
def ofStatements (input output : String) (statements : List Statement) : Except Defect Program :=
  let p : Program := ⟨input, output, none, statements⟩
  p.check.map fun _ => p

/-- The program that starts at the given label, if it has no defect. -/
def startingAt (p : Program) (label : String) : Except Defect Program :=
  let q := { p with start := some label }
  q.check.map fun _ => q

end Program

end Acceptors.Goto
