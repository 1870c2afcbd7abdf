import Acceptors.Command.Run

/-!
# The command

Reads the arguments, the file that they name and, if it is needed, the standard input, and writes
what `runCommand` says.
-/

open Acceptors

/-- Why a file cannot be read. -/
def accessError : IO.Error → AccessError
  | .inappropriateType _ code _ => if code = 21 then .isFolder else .notFolder
  | _ => .missing

/-- The text of bytes. -/
def decode (bytes : ByteArray) : Except AccessError String :=
  match String.fromUTF8? bytes with
  | some text => .ok text
  | none => .error .notText

/-- The text of the file at a path. -/
def readFile (path : String) : IO (Except AccessError String) := do
  try
    return decode (← IO.FS.readBinFile path)
  catch e => return .error (accessError e)

/-- The whole standard input. -/
def readInput : IO (Except AccessError String) := do
  try
    return decode (← (← IO.getStdin).readBinToEnd)
  catch _ => return .error .notText

/-- Writes what the command says for its arguments. -/
def main (arguments : List String) : IO UInt32 := do
  let request := Request.ofArguments? arguments
  let text ← match request.bind Request.file with
    | some path => readFile path
    | none => pure (.error .missing)
  let needsInput := match request with
    | none => false
    | some r =>
      r.words.isEmpty && match r.definition fun _ => text with
        | .ok d => d.checks.isEmpty
        | .error _ => false
  let input ← if needsInput then readInput else pure (.ok "")
  match runCommand arguments (fun _ => text) input with
  | none => return 1
  | some output =>
    for line in output.out do IO.println line
    for line in output.err do IO.eprintln line
    return output.code.toUInt32
