import Acceptors.Description.Section
import Acceptors.Machine.Basic
import Acceptors.Text.Digits

/-!
# Descriptions of machines

The rules of a machine stand in blocks, one for each state. An action reads, writes and moves on
each tape and names the next state.

## Main definitions

* `machineSections`: reads the sections of a machine
* `actionOf`: the transition that an action line stands for
* `machineOf`: the machine that sections describe
-/

namespace Acceptors.Description

/-! ## Reading -/

/-- Reads one item, or several items with commas in between and in brackets. -/
def tupleOf {α : Type} (r : Reader α) : Reader (List α) :=
  .bracketed (.commaSeparated r) <|> (fun a => [a]) <$> r

/-- Reads the symbols of an action. -/
def symbolTuple : Reader (List Char) := .phrase .tuple (tupleOf symbol)

/-- Reads the directions of an action. -/
def directionTuple : Reader (List (Located Char)) :=
  .phrase .directions (tupleOf (.located (.token .direction Token.direction)))

/-- What an action line says. -/
structure ActionLine where
  read : List Char
  write : List Char
  directions : List (Located Char)
  next : String

/-- Reads an action line. -/
def actionLine : Reader (Located ActionLine) := .located <| .phrase .tmAction do
  let read ← symbolTuple
  .skip
  .lit "->"
  .skip
  let write ← symbolTuple
  .skip
  .lit ","
  .skip
  let directions ← directionTuple
  .skip
  .lit ","
  .skip
  let next ← stateName
  return { read, write, directions, next }

/-! ## Transitions -/

/-- The direction that a character stands for. -/
def directionOf (x : Located Char) : Checked Direction :=
  match x.value with
  | '<' | 'L' => .ok .left
  | '>' | 'R' => .ok .right
  | '-' | 'S' => .ok .stay
  | c => x.complain (.unknownDirection c)

/-- The transition that an action line stands for. -/
def actionOf (x : Located ActionLine) : Checked Transition := do
  let directions ← gather (x.value.directions.map directionOf)
  if x.value.read.length = x.value.write.length ∧ x.value.read.length = directions.length then
    return { read := x.value.read, write := x.value.write, directions, next := x.value.next }
  else
    x.complain
      (.unevenAction x.value.read.length x.value.write.length directions.length)

/-- Reads a section with the blank of a machine. -/
def blankSection : Reader Section := Section.blank <$> sectionOf .blank "blank" symbol

/-- The largest number of tapes that can be written. -/
def greatestCount : Nat := 18446744073709551615

/-- The number of tapes that digits stand for. -/
def countOf (x : Located (List Char)) : Checked Nat :=
  if Text.numberOf x.value ≤ greatestCount then .ok (Text.numberOf x.value)
  else x.complain (.invalidCount (.ofList x.value))

/-- Reads a section with the number of tapes. -/
def tapesSection : Reader Section :=
  (fun digits => Section.tapes (countOf digits)) <$>
    (sectionOf .tapes "tapes" (.token .count Token.digits)).located

/-- Reads a section of blocks of action lines. -/
def transitionsSection : Reader Section :=
  (fun blocks => Section.transitions (checkBlocks [] blocks)) <$>
    sectionOf .tmRules "rules" (itemLines (block .tmBlock (actionOf <$> actionLine)))

/-- Reads the sections of a machine. -/
def machineSections : Reader (List (Located Section)) :=
  sections .tmFile
    (nameSection <|> blankSection <|> tapesSection <|> initialSection <|> acceptingSection <|>
      transitionsSection <|> checksSection)

/-! ## Assembling -/

/-- The accepting states with the stretch of text of their section. -/
def acceptingStates (l : List (Located Section)) : Except Refusal (Located (List String)) :=
  match l.findSome? fun s => s.value.accepting?.map fun states => ⟨states, s.before, s.after⟩ with
  | some states => .ok states
  | none => .error (.missing "accepting")

/-- The only state of a list. -/
def onlyState (states : Located (List String)) : Checked String :=
  match states.value with
  | [state] => .ok state
  | several => states.complain (.acceptingStates several.length)

/-- The initial state that is given, or else the state of the first block. -/
def initialState {α : Type} (l : List (Located Section)) (blocks : List (Block α)) :
    Except Refusal String :=
  match found? l Section.initial?, blocks with
  | some state, _ => .ok state
  | none, (state, _) :: _ => .ok state
  | none, [] => .error (.missing "initial")

/-- The number of tapes that is given, or else that of the first transition, or else one. -/
def tapeCount (given : Option Nat) (rules : List (String × Transition)) : Nat :=
  (given.or (rules.head?.map fun (_, t) => t.read.length)).getD 1

/-- The number of tapes that is given, if any. -/
def givenTapes (l : List (Located Section)) : Except Refusal (Option Nat) :=
  match found? l Section.tapes? with
  | none => .ok none
  | some count => (count.map some).mapError .complaint

/-- The name and the machine that sections describe. -/
def machineOf (l : List (Located Section)) : Except Refusal (String × Machine) := do
  let name ← givenName l
  let tapes ← givenTapes l
  let accepting ← acceptingStates l
  let final ← (onlyState accepting).accept
  let checkedBlocks ← required l "rules" Section.transitions?
  let blocks ← checkedBlocks.accept
  let initial ← initialState l blocks
  let blank := (found? l Section.blank?).getD defaultBlank
  let rules := Block.flatten blocks
  let m ← (Machine.ofRules initial final blank (tapeCount tapes rules) rules).mapError .defect
  return (name, m)

end Acceptors.Description
