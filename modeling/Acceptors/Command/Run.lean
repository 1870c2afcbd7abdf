import Acceptors.Command.Output
import Acceptors.Command.Request

/-!
# Running the command

What the command writes is a function of its arguments, of the file it reads and of its standard
input. What was written before a fault stays.

## Main definitions

* `Output`: the exit code and what is written
* `Request.run`: what a request writes; nothing if a machine without a bound never ends
* `runCommand`: what a list of arguments writes
-/

namespace Acceptors

/-- The exit code of the command, and the lines on its two outputs. -/
structure Output where
  code : Nat
  out : List String
  err : List String
  deriving DecidableEq, Repr

/-- The exit code of a crash. -/
def crashCode : Nat := 101

namespace Request

section

variable (r : Request) (read : String → Except AccessError String)
  (input : Except AccessError String)

/-- The kind that is asked for, if any. -/
def givenKind : Except Fault (Option Kind) :=
  match r.kind with
  | none => .ok none
  | some name =>
    match Kind.ofExtension? name with
    | some k => .ok (some k)
    | none => .error (.unknownKind name)

/-- The definition that is asked for: that of a sample or of a file. -/
def definition : Except Fault Definition :=
  match r.sample with
  | some name => Sample.definitionOf name
  | none => do
    let kind ← r.givenKind
    loadWith read kind (r.file.getD "")

/-- The lines of a text; line feeds, and carriage returns before them, do not belong to them. -/
def inputLines (text : List Char) : List Word :=
  (Text.lines text).map fun line =>
    ((line.reverse.dropWhile (· = '\n')).dropWhile (· = '\r')).reverse

/-- The words to decide: those that are given, or else those to check, or else the lines of the
standard input. -/
def chosenWords (d : Definition) : Except Fault (List Word) :=
  if !r.words.isEmpty then .ok (r.words.map String.toList)
  else if !d.checks.isEmpty then .ok d.checks
  else match input with
    | .ok text => .ok (inputLines text.toList)
    | .error e => .error (.unreadableInput e)

/-- What stays of `out` and `err` when a fault ends the command. A crash tells its cause only, and
has an exit code of its own. -/
def stopped (out err : List String) (f : Fault) : Output :=
  if f.category = .crash then ⟨crashCode, out, err ++ [f.describe]⟩
  else ⟨1, out, err ++ ["Error: " ++ f.message]⟩

/-- The report on a definition, after the given lines. -/
def runWords (d : Definition) (out err : List String) : Option Output :=
  match r.chosenWords input d with
  | .error f => some (stopped out err f)
  | .ok words => do
    let simulations ← d.automaton.simulateAll r.limit words
    -- what the words reported up to a fault stays written
    let err := err ++
      if r.verbose then ((words.zip simulations).map fun (w, s) => s.lines w).flatten else []
    match Report.ofSimulations simulations with
    | .error f => return stopped out err f
    | .ok report =>
      return ⟨0, out ++ if r.json then [report.encode.pretty] else report.lines d, err⟩

/-- What the request writes. -/
def run : Option Output :=
  if r.list || (r.file.isNone && r.sample.isNone) then some ⟨0, Sample.listing, []⟩
  else
    match r.definition read with
    | .error f => some (stopped [] [] f)
    | .ok d =>
      if r.minimize then
        match d.automaton with
        | .dfa a =>
          r.runWords input d a.minimizationLines (if r.verbose then a.passLines else [])
        | _ => some (stopped [] [] (.notMinimizable d.name))
      else r.runWords input d [] []

end

end Request

/-- The exit code for arguments that are misused. -/
def misuseCode : Nat := 2

/-- What a list of arguments writes. `read` finds the text at a path, and `input` is the standard
input. -/
def runCommand (arguments : List String) (read : String → Except AccessError String)
    (input : Except AccessError String) : Option Output :=
  match Request.ofArguments? arguments with
  | none => some ⟨misuseCode, [], []⟩
  | some r => r.run read input

end Acceptors
