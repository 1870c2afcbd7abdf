import Acceptors.Defect
import Acceptors.Description.Reader
import Acceptors.Dfa.Basic
import Acceptors.Gather
import Acceptors.Goto.Basic
import Acceptors.Grammar.Basic
import Acceptors.Machine.Transition
import Acceptors.Text.Blank

/-!
# Sections of descriptions

A description is a list of sections, each of which starts with its keyword and stands in it at
most once. The order of the sections does not matter.

## Main definitions

* `Section`: the sections of all kinds of description
* `Complaint`: what can be wrong at a place of a text that is read as a whole
* `Refusal`: why a list of sections is no description
* `sections`: reads the sections of a text
* `required`, `unrepeated`: what assembling a description asks of its sections
-/

namespace Acceptors.Description

/-! ## What can be wrong -/

/-- What can be wrong at a place of a text that is read as a whole. -/
inductive Complaint where
  | duplicateSection (keyword : String)
  | duplicateBlock (state : String)
  | unknownNonterminal (name : String)
  | invalidCount (digits : String)
  | acceptingStates (found : Nat)
  | unevenAction (read write directions : Nat)
  | unknownDirection (c : Char)
  | literalOutOfRange (digits : String)
  deriving DecidableEq, Repr

/-- The wording of a complaint. -/
def Complaint.message : Complaint → String
  | duplicateSection keyword => "Duplicate \"" ++ keyword ++ ":\" declaration"
  | duplicateBlock state => "Duplicate transition rule: " ++ state
  | unknownNonterminal name => "Unknown nonterminal: " ++ name
  | invalidCount digits => "Invalid count: " ++ digits
  | acceptingStates found =>
    "A Turing machine has exactly one accepting state, found " ++ toString found
  | unevenAction read write directions =>
    "Inconsistent multi-tape action: read=" ++ toString read ++ ", write=" ++ toString write ++
      ", directions=" ++ toString directions
  | unknownDirection c => "Unsupported direction: " ++ c.toString
  | literalOutOfRange digits => "Literal out of range: " ++ digits

/-- A value, or a complaint about the stretch of text that it was to be made from. -/
abbrev Checked (α : Type) := Except (Located Complaint) α

/-- A complaint about the stretch of text that a value was read from. -/
def Located.complain {α β : Type} (x : Located α) (c : Complaint) : Checked β :=
  .error ⟨c, x.before, x.after⟩

/-- Why a list of sections is no description. -/
inductive Refusal where
  /-- Something is wrong at a place of the text. -/
  | complaint (c : Located Complaint)
  /-- A section is missing. -/
  | missing (keyword : String)
  /-- What is described has a defect. -/
  | defect (d : Defect)

/-! ## Sections -/

/-- The rules of a state: its name and what is listed below it. -/
abbrev Block (α : Type) := String × List α

/-- An edge line: the symbols of its edges and their common target. -/
abbrev EdgeLine := List Char × String

/-- A section of a description. -/
inductive Section where
  | name (text : List Char)
  | checks (words : List Word)
  | start (label : String)
  | initial (state : String)
  | accepting (states : List String)
  | productions (rules : Checked (List Production))
  | blank (c : Char)
  | tapes (count : Checked Nat)
  | transitions (blocks : Checked (List (Block Transition)))
  | alphabet (symbols : List Char)
  | edges (blocks : Checked (List (Block EdgeLine)))
  | input (variableName : String)
  | output (variableName : String)
  | program (statements : Checked (List Goto.Statement))

namespace Section

/-- The keyword that a section starts with. -/
def keyword : Section → String
  | name _ => "name"
  | checks _ => "checks"
  | start _ => "start"
  | initial _ => "initial"
  | accepting _ => "accepting"
  | productions _ => "rules"
  | blank _ => "blank"
  | tapes _ => "tapes"
  | transitions _ => "rules"
  | alphabet _ => "alphabet"
  | edges _ => "rules"
  | input _ => "input"
  | output _ => "output"
  | program _ => "program"

/-- The text of a name section. -/
def name? : Section → Option (List Char)
  | name text => some text
  | _ => none

/-- The words of a checks section. -/
def checks? : Section → Option (List Word)
  | checks words => some words
  | _ => none

/-- The name in a start section. -/
def start? : Section → Option String
  | start label => some label
  | _ => none

/-- The state of an initial section. -/
def initial? : Section → Option String
  | initial state => some state
  | _ => none

/-- The states of an accepting section. -/
def accepting? : Section → Option (List String)
  | accepting states => some states
  | _ => none

/-- The productions of a rules section. -/
def productions? : Section → Option (Checked (List Production))
  | productions rules => some rules
  | _ => none

/-- The character of a blank section. -/
def blank? : Section → Option Char
  | blank c => some c
  | _ => none

/-- The number in a tapes section. -/
def tapes? : Section → Option (Checked Nat)
  | tapes count => some count
  | _ => none

/-- The blocks of transitions of a rules section. -/
def transitions? : Section → Option (Checked (List (Block Transition)))
  | transitions blocks => some blocks
  | _ => none

/-- The symbols of an alphabet section. -/
def alphabet? : Section → Option (List Char)
  | alphabet symbols => some symbols
  | _ => none

/-- The blocks of edges of a rules section. -/
def edges? : Section → Option (Checked (List (Block EdgeLine)))
  | edges blocks => some blocks
  | _ => none

/-- The variable of an input section. -/
def input? : Section → Option String
  | input x => some x
  | _ => none

/-- The variable of an output section. -/
def output? : Section → Option String
  | output x => some x
  | _ => none

/-- The statements of a program section. -/
def program? : Section → Option (Checked (List Goto.Statement))
  | program statements => some statements
  | _ => none

end Section

/-! ## Reading sections -/

section

variable {α : Type}

/-- Reads a keyword and its colon. -/
def heading (keyword : String) : Reader Unit := do
  Reader.lit keyword
  .skip
  .lit ":"
  .skip

/-- Reads a section of a single value. -/
def sectionOf (p : Phrase) (keyword : String) (r : Reader α) : Reader α := .phrase p do
  heading keyword
  r

/-- Reads items that each start on a line of their own. -/
def itemLines (r : Reader α) : Reader (List α) := .many do
  Reader.newlines
  r

/-- Reads a name of a state. -/
def stateName : Reader String := .token .stateId Token.stateName

/-- Reads a symbol. -/
def symbol : Reader Char := .token .symbol Token.symbol

/-- Reads a name section. -/
def nameSection : Reader Section :=
  Section.name <$> sectionOf .name "name" (.token .text Token.text)

/-- Reads a checks section. -/
def checksSection : Reader Section :=
  (fun words => Section.checks (words.getD [])) <$> sectionOf .checks "checks"
    (.optional (.phrase .words (.listOf (.token .word Token.word))))

/-- Reads a section with the initial state. -/
def initialSection : Reader Section := Section.initial <$> sectionOf .initial "initial" stateName

/-- Reads a section with the accepting states. -/
def acceptingSection : Reader Section :=
  Section.accepting <$> sectionOf .accepting "accepting" (.phrase .stateList (.listOf stateName))

/-- Reads a section with a start symbol or a start label. -/
def startSection : Reader Section :=
  Section.start <$> sectionOf .start "start" (.token .ident Token.ident)

/-- Reads a whole text as sections. -/
def sections (p : Phrase) (section_ : Reader Section) : Reader (List (Located Section)) :=
  .phrase p do
    Reader.skip
    let _ ← Reader.lineEnd.many
    .skip
    let first ← section_.located
    .skip
    let rest ← itemLines section_.located
    .skip
    let _ ← Reader.lineEnd.many
    .skip
    .eoi
    return first :: rest

end

/-! ## Blocks of rules -/

section

variable {α : Type}

/-- Reads a block: the name of a state and the items below it. -/
def block (p : Phrase) (item : Reader α) : Reader (Located (Block α)) :=
  .located <| .phrase p do
    let state ← stateName
    .skip
    .lit ":"
    .skip
    let items ← itemLines item
    return (state, items)

/-- The blocks, if no two of them belong to one state or to one of `seen` and no item is complained
about. -/
def checkBlocks (seen : List String) :
    List (Located (Block (Checked α))) → Checked (List (Block α))
  | [] => .ok []
  | b :: bs =>
    -- a repeated state is noticed before what stands in its block
    if seen.contains b.value.1 then b.complain (.duplicateBlock b.value.1)
    else do
      let items ← gather b.value.2
      let rest ← checkBlocks (b.value.1 :: seen) bs
      return (b.value.1, items) :: rest

/-- The items of all blocks, each with the state of its block. -/
def Block.flatten (blocks : List (Block α)) : List (String × α) :=
  blocks.flatMap fun (state, items) => items.map fun item => (state, item)

end

/-! ## Assembling a description -/

section

variable {α : Type} (l : List (Located Section))

/-- The section that `view` looks for. -/
def found? (view : Section → Option α) : Option α := l.findSome? fun s => view s.value

/-- The section that `view` looks for, which must be there. -/
def required (keyword : String) (view : Section → Option α) : Except Refusal α :=
  match found? l view with
  | some a => .ok a
  | none => .error (.missing keyword)

/-- A checked value as part of a description. -/
def Checked.accept (x : Checked α) : Except Refusal α := x.mapError .complaint

/-- Complains about the first section whose keyword occurred before or is one of `seen`. -/
def unrepeated (seen : List String) : List (Located Section) → Checked Unit
  | [] => .ok ()
  | s :: rest =>
    if seen.contains s.value.keyword then s.complain (.duplicateSection s.value.keyword)
    else unrepeated (s.value.keyword :: seen) rest

/-- The name of what is described. -/
def givenName : Except Refusal String :=
  (required l "name" Section.name?).map fun text => .ofList (Text.trim text)

/-- The words to check; there may be none. -/
def givenChecks : List Word := (found? l Section.checks?).getD []

end

end Acceptors.Description
