import Acceptors.Description.MachineText
import Acceptors.Goto.Arithmetic
import Acceptors.Goto.Check
import Acceptors.Text.Digits

/-!
# Descriptions of programs

## Main definitions

* `statementLine`: reads a statement
* `programSections`: reads the sections of a program
* `programOf`: the program that sections describe
-/

namespace Acceptors.Description

open Goto (Instruction Operand Operator Relation Statement Program)

/-! ## Reading instructions -/

/-- Reads a label. -/
def label : Reader String := .token .label Token.label

/-- Reads a name of a variable. -/
def variableName : Reader String := .token .variableName Token.variableName

/-- The number that digits stand for, if it is a value. -/
def literalOf (x : Located (List Char)) : Checked Operand :=
  if (Text.numberOf x.value : Int) ≤ Goto.greatestValue then .ok (.lit (Text.numberOf x.value))
  else x.complain (.literalOutOfRange (.ofList x.value))

/-- Reads a number or a variable. -/
def operand : Reader (Checked Operand) :=
  literalOf <$> .located (.token .literal Token.digits) <|>
    (fun x => .ok (.var x)) <$> variableName

/-- Reads one of several signs, the first that fits. -/
def signOf {α : Type} : List (String × α) → Reader α
  | [] => ⟨fun _ => none, fun _ e => e⟩
  | (sign, a) :: rest => (fun _ => a) <$> Reader.lit sign <|> signOf rest

/-- Reads the sign of a comparison. -/
def relation : Reader Relation := .phrase .relation <| signOf
  [("!=", .ne), ("<=", .le), (">=", .ge), ("=", .eq), ("<", .lt), (">", .gt)]

/-- Reads the sign of an operator. -/
def operator : Reader Operator := .phrase .operator <| signOf
  [("+", .add), ("-", .sub), ("*", .mul), ("div", .div), ("mod", .mod)]

/-- Reads the target of an assignment and the sign behind it. -/
def assignee : Reader String := do
  let x ← variableName
  .skip
  .lit ":="
  .skip
  return x

/-- Reads an assignment of the result of an operator. -/
def computeLine : Reader (Checked Instruction) := .phrase .compute do
  let x ← assignee
  let a ← operand
  .skip
  let op ← operator
  .skip
  let b ← operand
  return do
    let a ← a
    let b ← b
    return .compute x a op b

/-- Reads an assignment of an operand. -/
def assignLine : Reader (Checked Instruction) := .phrase .assign do
  let x ← assignee
  let a ← operand
  return a.map (.assign x ·)

/-- Reads the end of a run. -/
def haltLine : Reader (Checked Instruction) :=
  (fun _ => .ok .halt) <$> Reader.phrase .halt (.lit "halt")

/-- Reads the word for a jump and its label. -/
def destination : Reader String := do
  Reader.lit "goto"
  .skip
  label

/-- Reads a jump. -/
def jumpLine : Reader (Checked Instruction) :=
  (fun l => .ok (.jump l)) <$> Reader.phrase .jump destination

/-- Reads a jump with a condition. -/
def branchLine : Reader (Checked Instruction) := .phrase .ifJump do
  Reader.lit "if"
  .skip
  let a ← operand
  .skip
  let rel ← relation
  .skip
  let b ← operand
  .skip
  let l ← destination
  return do
    let a ← a
    let b ← b
    return .branch a rel b l

/-- Reads a statement. -/
def statementLine : Reader (Checked Statement) := .phrase .statement do
  let l ← label
  .skip
  .lit ":"
  .skip
  let i ← computeLine <|> assignLine <|> haltLine <|> jumpLine <|> branchLine
  return i.map (⟨l, ·⟩)

/-! ## Reading sections -/

/-- Reads a section with the input variable. -/
def inputSection : Reader Section := Section.input <$> sectionOf .inputVar "input" variableName

/-- Reads a section with the output variable. -/
def outputSection : Reader Section := Section.output <$> sectionOf .outputVar "output" variableName

/-- Reads a section of statements. -/
def statementsSection : Reader Section :=
  (fun statements => Section.program (gather statements)) <$>
    sectionOf .program "program" (itemLines statementLine)

/-- Reads the sections of a program. -/
def programSections : Reader (List (Located Section)) :=
  sections .gotoFile
    (nameSection <|> inputSection <|> outputSection <|> startSection <|> statementsSection <|>
      checksSection)

/-! ## Assembling -/

/-- The program that starts at the given label, if one is given. -/
def startedAt (p : Program) : Option String → Except Defect Program
  | none => .ok p
  | some l => p.startingAt l

/-- The name and the program that sections describe. -/
def programOf (l : List (Located Section)) : Except Refusal (String × Program) := do
  let name ← givenName l
  let input ← required l "input" Section.input?
  let output ← required l "output" Section.output?
  let checkedStatements ← required l "program" Section.program?
  let statements ← checkedStatements.accept
  let p ← (Program.ofStatements input output statements).mapError .defect
  let p ← (startedAt p (found? l Section.start?)).mapError .defect
  return (name, p)

end Acceptors.Description
