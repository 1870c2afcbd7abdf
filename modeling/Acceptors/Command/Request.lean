import Acceptors.Text.Digits

/-!
# Requests on the command line

## Main definitions

* `Request`: what the arguments ask for
* `Request.ofArguments?`: the request of a list of arguments; nothing if they are misused
-/

namespace Acceptors

/-- What the arguments of the command ask for. -/
structure Request where
  file : Option String := none
  sample : Option String := none
  kind : Option String := none
  words : List String := []
  limit : Option Nat := none
  list : Bool := false
  minimize : Bool := false
  json : Bool := false
  verbose : Bool := false
  deriving DecidableEq, Repr

namespace Request

/-- The options that take a value. -/
inductive ValueOption where
  | sample | kind | word | limit
  deriving DecidableEq, Repr

/-- The options that take none. -/
inductive Switch where
  | list | minimize | json | verbose
  deriving DecidableEq, Repr

/-- The largest number that an option takes. -/
def greatestNumber : Nat := 18446744073709551615

/-- The number that a text stands for: digits, with or without a plus sign in front. -/
def number? (s : String) : Option Nat :=
  let digits := match s.toList with
    | '+' :: rest => rest
    | all => all
  (Text.number? digits).filter fun n => n ≤ greatestNumber

section

variable (r : Request)

/-- The request with the value of an option. Only words may be given more than once. -/
def setValue (v : String) : ValueOption → Option Request
  | .sample => if r.sample.isSome then none else some { r with sample := some v }
  | .kind => if r.kind.isSome then none else some { r with kind := some v }
  | .word => some { r with words := r.words ++ [v] }
  | .limit =>
    if r.limit.isSome then none else (number? v).map fun n => { r with limit := some n }

/-- The request with a switch, which may be given once. -/
def turnOn : Switch → Option Request
  | .list => if r.list then none else some { r with list := true }
  | .minimize => if r.minimize then none else some { r with minimize := true }
  | .json => if r.json then none else some { r with json := true }
  | .verbose => if r.verbose then none else some { r with verbose := true }

/-- The request with a file, which may be given once. -/
def setFile (file : String) : Option Request :=
  if r.file.isSome then none else some { r with file := some file }

end

/-! ## Names of options -/

/-- The option with a long name. -/
def longOption? : String → Option (ValueOption ⊕ Switch)
  | "sample" => some (.inl .sample)
  | "type" => some (.inl .kind)
  | "word" => some (.inl .word)
  | "limit" => some (.inl .limit)
  | "list" => some (.inr .list)
  | "minimize" => some (.inr .minimize)
  | "json" => some (.inr .json)
  | "verbose" => some (.inr .verbose)
  | _ => none

/-- The option with a name of one letter. -/
def shortOption? : Char → Option (ValueOption ⊕ Switch)
  | 's' => some (.inl .sample)
  | 't' => some (.inl .kind)
  | 'w' => some (.inl .word)
  | 'l' => some (.inl .limit)
  | 'm' => some (.inr .minimize)
  | 'v' => some (.inr .verbose)
  | _ => none

/-! ## Reading arguments -/

/-- What the next argument is read as. -/
inductive Expecting where
  /-- An option or a file. -/
  | anything
  /-- The value of an option. -/
  | valueOf (o : ValueOption)
  /-- A file, whatever it looks like. -/
  | filesOnly

/-- Reads an option with a long name, with or without a value attached to it. -/
def readLong (r : Request) (argument : List Char) : Option (Request × Expecting) :=
  let name := argument.takeWhile (· ≠ '=')
  let attached := (argument.drop name.length).tail?
  match longOption? (.ofList name), attached with
  | none, _ => none
  | some (.inl o), some v => (r.setValue (.ofList v) o).map fun r => (r, .anything)
  | some (.inl o), none => some (r, .valueOf o)
  | some (.inr _), some _ => none
  | some (.inr s), none => (r.turnOn s).map fun r => (r, .anything)

/-- Reads options of one letter each; what follows one that takes a value is the value. -/
def readShort (r : Request) : List Char → Option (Request × Expecting)
  | [] => some (r, .anything)
  | c :: rest =>
    match shortOption? c with
    | none => none
    | some (.inr s) => (r.turnOn s).bind fun r => readShort r rest
    | some (.inl o) =>
      match rest with
      | [] => some (r, .valueOf o)
      -- an equality sign in front does not belong to the value
      | '=' :: v => (r.setValue (.ofList v) o).map fun r => (r, .anything)
      | v => (r.setValue (.ofList v) o).map fun r => (r, .anything)

/-- Whether an argument looks like an option. A single dash does not. -/
def looksLikeOption : List Char → Bool
  | '-' :: _ :: _ => true
  | _ => false

/-- Reads one argument. -/
def readArgument (r : Request) (argument : String) : Expecting → Option (Request × Expecting)
  | .filesOnly => (r.setFile argument).map fun r => (r, .filesOnly)
  | .valueOf o =>
    if looksLikeOption argument.toList then none
    else (r.setValue argument o).map fun r => (r, .anything)
  | .anything =>
    match argument.toList with
    -- two dashes end the options
    | ['-', '-'] => some (r, .filesOnly)
    | '-' :: '-' :: long => readLong r long
    | '-' :: c :: short => readShort r (c :: short)
    | _ => (r.setFile argument).map fun r => (r, .anything)

/-- Reads arguments in order. Every option that takes a value must get one. -/
def readArguments (r : Request) (expecting : Expecting) : List String → Option Request
  | [] =>
    match expecting with
    | .valueOf _ => none
    | _ => some r
  | argument :: rest => do
    let (r, expecting) ← readArgument r argument expecting
    readArguments r expecting rest

/-- The request of a list of arguments; nothing if they are misused. A file and a sample exclude
each other. -/
def ofArguments? (arguments : List String) : Option Request := do
  let r ← readArguments {} .anything arguments
  if r.file.isSome && r.sample.isSome then none else return r

end Request

end Acceptors
