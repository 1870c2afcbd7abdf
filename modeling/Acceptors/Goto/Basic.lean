/-!
# GOTO programs

A program is a list of labelled instructions over integer variables. It reads one variable as its
input, and another one holds its output when it stops.

## Main definitions

* `Goto.Operand`, `Goto.Operator`, `Goto.Relation`: what instructions compute and compare
* `Goto.Instruction`, `Goto.Statement`, `Goto.Program`
* `Goto.Program.text`: the lines of a program
-/

namespace Acceptors.Goto

/-- A number or a variable. -/
inductive Operand where
  | lit (value : Int)
  | var (name : String)
  deriving DecidableEq, Repr

/-- The arithmetic operators. -/
inductive Operator where
  | add | sub | mul | div | mod
  deriving DecidableEq, Repr

/-- The comparisons. -/
inductive Relation where
  | eq | ne | lt | gt | le | ge
  deriving DecidableEq, Repr

/-- What a statement does. -/
inductive Instruction where
  /-- Sets a variable to the value of an operand. -/
  | assign (target : String) (value : Operand)
  /-- Sets a variable to the result of an operator. -/
  | compute (target : String) (left : Operand) (operator : Operator) (right : Operand)
  /-- Goes to the statement with the label. -/
  | jump (label : String)
  /-- Goes to the statement with the label if the comparison holds. -/
  | branch (left : Operand) (relation : Relation) (right : Operand) (label : String)
  /-- Stops the program. -/
  | halt
  deriving DecidableEq, Repr

/-- An instruction with its label. -/
structure Statement where
  label : String
  instruction : Instruction
  deriving DecidableEq, Repr

/-- A program: its input and output variables, the label it starts at if that is not the first
statement, and its statements. -/
structure Program where
  input : String
  output : String
  start : Option String
  statements : List Statement
  deriving DecidableEq, Repr

/-! ## Texts -/

/-- The text of an operand. -/
def Operand.text : Operand → String
  | lit value => toString value
  | var name => name

/-- The sign of an operator. -/
def Operator.text : Operator → String
  | add => "+"
  | sub => "-"
  | mul => "*"
  | div => "div"
  | mod => "mod"

/-- The sign of a comparison. -/
def Relation.text : Relation → String
  | eq => "="
  | ne => "!="
  | lt => "<"
  | gt => ">"
  | le => "<="
  | ge => ">="

/-- The text of an instruction. -/
def Instruction.text : Instruction → String
  | assign target value => target ++ " := " ++ value.text
  | compute target left operator right =>
    target ++ " := " ++ left.text ++ " " ++ operator.text ++ " " ++ right.text
  | jump label => "goto " ++ label
  | branch left relation right label =>
    "if " ++ left.text ++ " " ++ relation.text ++ " " ++ right.text ++ " goto " ++ label
  | halt => "halt"

/-- The label that an instruction may go to. -/
def Instruction.jumpTarget? : Instruction → Option String
  | jump label => some label
  | branch _ _ _ label => some label
  | _ => none

/-- The text of a statement. -/
def Statement.text (s : Statement) : String := s.label ++ ": " ++ s.instruction.text

/-- The lines in front of the statements: the variables, and the start label if there is one. -/
def Program.headings (p : Program) : List String :=
  ["input: " ++ p.input, "output: " ++ p.output] ++
    p.start.toList.map fun label => "start: " ++ label

/-- The lines of a program: its headings and its statements. -/
def Program.lines (p : Program) : List String := p.headings ++ p.statements.map Statement.text

/-- The text of a program, each line ended by a line feed. -/
def Program.text (p : Program) : String := String.join (p.lines.map fun l => l ++ "\n")

end Acceptors.Goto
