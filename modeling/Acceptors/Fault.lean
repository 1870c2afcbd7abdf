import Acceptors.Defect
import Acceptors.Dfa.Basic
import Acceptors.Goto.Run
import Acceptors.Kind
import Acceptors.Text.Diagnostic

/-!
# Faults

All that can go wrong, from reading a description to running what it describes.

## Main definitions

* `Fault`: the causes
* `Fault.category`: their categories
* `Fault.message`: their wording
-/

namespace Acceptors

/-- Why a file or a folder cannot be read. -/
inductive AccessError where
  | missing
  | notFolder
  | isFolder
  | notText
  deriving DecidableEq, Repr

/-- The wording of an access error. -/
def AccessError.message : AccessError → String
  | missing => "No such file or directory (os error 2)"
  | notFolder => "Not a directory (os error 20)"
  | isFolder => "Is a directory (os error 21)"
  | notText => "stream did not contain valid UTF-8"

/-- The largest size of a description, in bytes. -/
def greatestSize : Nat := 65536

/-- A fault and its cause. -/
inductive Fault where
  /-- A run starts in a state that the automaton does not have. -/
  | unknownState (name : String)
  /-- A run meets a symbol outside the alphabet. -/
  | unknownSymbol (c : Char)
  /-- A text is no description. -/
  | unreadable (d : Text.Diagnostic)
  /-- What is described has a defect. -/
  | defect (d : Defect)
  /-- A description lacks a section. -/
  | missingSection (keyword : String)
  /-- A table lists the states of another automaton. -/
  | foreignTable
  /-- There are not so many samples. -/
  | noSampleAt (index : Nat)
  /-- No sample has the name. -/
  | noSample (name : String)
  /-- What is to be minimized is no deterministic automaton. -/
  | notMinimizable (name : String)
  /-- There is no such kind of description. -/
  | unknownKind (name : String)
  /-- The name of a file does not tell its kind. -/
  | untypedFile (path : String)
  /-- A file cannot be read. -/
  | unreadableFile (path : String) (error : AccessError)
  /-- A file is too large for a description. -/
  | oversizedFile (path : String)
  /-- A folder does not exist. -/
  | noFolder (path : String)
  /-- A folder cannot be read. -/
  | unreadableFolder (path : String) (error : AccessError)
  /-- A file of a folder holds no description. -/
  | failedFile (path : String) (reason : Fault)
  /-- A sample holds no description. -/
  | failedSample (file : String) (reason : Fault)
  /-- The standard input cannot be read. -/
  | unreadableInput (error : AccessError)
  /-- The input of a program is no value. -/
  | notAnInteger (word : Word)
  /-- A program fails. -/
  | execution (failure : Goto.Failure)
  /-- There is no room for the tapes of a machine. -/
  | tooManyTapes (count : Nat)

namespace Fault

/-- The categories of faults. All but the last are answered, a crash ends the whole program. -/
inductive Category where
  | state | symbol | reading | validation | file | execution | crash
  deriving DecidableEq, Repr

/-- What the message of a category starts with. -/
def Category.title : Category → String
  | state => "Invalid state"
  | symbol => "Invalid symbol"
  | reading => "Description parsing error"
  | validation => "Description validation error"
  | file => "File error"
  | execution => "Execution error"
  | crash => "Crash"

/-- The category of a fault. -/
def category : Fault → Category
  | unknownState _ => .state
  | unknownSymbol _ => .symbol
  | unreadable _ => .reading
  | defect _ | missingSection _ | foreignTable | noSampleAt _ | noSample _ | notMinimizable _
  | unknownKind _ => .validation
  | untypedFile _ | unreadableFile .. | oversizedFile _ | noFolder _ | unreadableFolder ..
  | failedFile .. | failedSample .. | unreadableInput _ => .file
  | notAnInteger _ | execution _ => .execution
  | tooManyTapes _ => .crash

/-- The message of a fault, and its wording without the title of its category. -/
def describe : Fault → String
  | unknownState name => name
  | unknownSymbol c => Text.quotedChar c
  | unreadable d => d.render
  | defect d => d.message
  | missingSection keyword => "Missing '" ++ keyword ++ "' section"
  | foreignTable => "Distinguish table does not belong to this automaton"
  | noSampleAt index => "Sample index " ++ toString index ++ " out of range"
  | noSample name => "Sample '" ++ name ++ "' not found"
  | notMinimizable name => "'" ++ name ++ "' is not a DFA and cannot be minimized"
  | unknownKind name =>
    "Unknown description type: " ++ name ++ " (expected one of " ++
      ", ".intercalate (Kind.all.map Kind.fileExtension) ++ ")"
  | untypedFile path => "Unknown description type for " ++ path
  | unreadableFile path error => "Failed to read file " ++ path ++ ": " ++ error.message
  | oversizedFile path => "File " ++ path ++ " exceeds " ++ toString greatestSize ++ " bytes"
  | noFolder path => "Directory " ++ path ++ " does not exist"
  | unreadableFolder path error => "Failed to read directory " ++ path ++ ": " ++ error.message
  | failedFile path reason =>
    "Failed to load description from " ++ path ++ ": " ++ reason.category.title ++ ": " ++
      describe reason
  | failedSample file reason =>
    "Failed to load sample " ++ file ++ ": " ++ reason.category.title ++ ": " ++ describe reason
  | unreadableInput error => "Failed to read stdin: " ++ error.message
  | notAnInteger word => "Input '" ++ .ofList word ++ "' is not an integer"
  | execution failure => failure.message
  | tooManyTapes _ => "capacity overflow"

/-- The wording of a fault. -/
def message (f : Fault) : String := f.category.title ++ ": " ++ f.describe

/-- A run that stops early, as a fault. -/
def ofRunError : Dfa.RunError → Fault
  | .unknownState name => .unknownState name
  | .unknownSymbol c => .unknownSymbol c

end Fault

end Acceptors
