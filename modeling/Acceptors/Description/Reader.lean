import Acceptors.Description.Phrase
import Acceptors.Description.Token

/-!
# Readers

A reader reads a value from the start of what is left of a text. Apart from that, and without any
influence on it, it tells which phrases it looked for in vain. A choice takes the first reader that
succeeds, and a repetition goes on as long as it can; neither is ever reconsidered.

## Main definitions

* `Reader`: what is read, and what is expected
* `Reader.token`, `Reader.phrase`: readers that tell when they fail
* `Reader.many`, `Reader.many1`, `Reader.optional`, `Reader.commaSeparated`: combinations
* `Located`, `Reader.located`: a value with the stretch of text it was read from

## Main results

* `read_bind`, `read_orElse`, …: what combinations read
-/

namespace Acceptors.Description

/-- Reads a value from the start of a text, and tells what it looked for in vain. -/
structure Reader (α : Type) where
  /-- The value and what is left of the text, if the text starts as it should. -/
  read : List Char → Option (α × List Char)
  /-- The expectations after reading, from those before. -/
  expect : List Char → Expectations → Expectations

/-- A value with what was left of the text before it was read and after. -/
structure Located (α : Type) where
  value : α
  before : List Char
  after : List Char
  deriving Repr

namespace Reader

section

variable {α β : Type}

/-! ## Sequences -/

instance : Monad Reader where
  pure a := ⟨fun s => some (a, s), fun _ e => e⟩
  bind r f :=
    { read := fun s => (r.read s).bind fun (a, t) => (f a).read t
      expect := fun s e =>
        match r.read s with
        | none => r.expect s e
        | some (a, t) => (f a).expect t (r.expect s e) }

@[simp] theorem read_pure (a : α) (s : List Char) : (pure a : Reader α).read s = some (a, s) := rfl

@[simp] theorem read_bind (r : Reader α) (f : α → Reader β) (s : List Char) :
    (r >>= f).read s = (r.read s).bind fun (a, t) => (f a).read t := rfl

@[simp] theorem read_map (f : α → β) (r : Reader α) (s : List Char) :
    (f <$> r).read s = (r.read s).map fun (a, t) => (f a, t) := by
  change (r.read s).bind _ = _
  cases r.read s <;> rfl

/-! ## Single steps -/

/-- Reads nothing and always succeeds; what may stand between tokens is passed over. -/
def skip : Reader Unit := ⟨fun s => some ((), skipBlanks s), fun _ e => e⟩

/-- Reads the given characters. -/
def lit (t : String) : Reader Unit where
  read s := if t.toList.isPrefixOf s then some ((), s.drop t.length) else none
  expect _ e := e

/-- Reads the end of a line. -/
def lineEnd : Reader Unit := ⟨fun s => (newline s).map ((), ·), fun _ e => e⟩

/-- Reads a phrase: if it fails, the phrase is expected in the place of what it looked for. -/
def phrase (p : Phrase) (r : Reader α) : Reader α where
  read := r.read
  expect s e :=
    match r.read s with
    | some _ => r.expect s e
    | none => (r.expect s e).miss e p s.length

/-- Reads a phrase that is a single token. -/
def token (p : Phrase) (t : Token α) : Reader α := phrase p ⟨t, fun _ e => e⟩

/-- Succeeds at the end of the text. -/
def eoi : Reader Unit :=
  token .endOfInput fun s => if s.isEmpty then some ((), []) else none

/-- Notes the stretch that a value is read from. -/
def located (r : Reader α) : Reader (Located α) where
  read s := (r.read s).map fun (a, t) => (⟨a, s, t⟩, t)
  expect := r.expect

@[simp] theorem read_skip (s : List Char) : skip.read s = some ((), skipBlanks s) := rfl

@[simp] theorem read_phrase (p : Phrase) (r : Reader α) : (phrase p r).read = r.read := rfl

@[simp] theorem read_token (p : Phrase) (t : Token α) : (token p t).read = t := rfl

@[simp] theorem read_located (r : Reader α) (s : List Char) :
    r.located.read s = (r.read s).map fun (a, t) => (⟨a, s, t⟩, t) := rfl

/-! ## Choices -/

/-- Reads by the first reader, or else by the second. -/
def orElse (r : Reader α) (r' : Unit → Reader α) : Reader α where
  read s := (r.read s).or ((r' ()).read s)
  expect s e :=
    match r.read s with
    | some _ => r.expect s e
    -- what the first reader missed stays expected
    | none => (r' ()).expect s (r.expect s e)

instance : OrElse (Reader α) := ⟨orElse⟩

/-- Reads a value if there is one. -/
def optional (r : Reader α) : Reader (Option α) := some <$> r <|> pure none

@[simp] theorem read_orElse (r r' : Reader α) (s : List Char) :
    (r <|> r').read s = (r.read s).or (r'.read s) := rfl

@[simp] theorem read_optional (r : Reader α) (s : List Char) :
    r.optional.read s =
      ((r.read s).map fun (a, t) => (some a, t)).or (some (none, s)) := by
  simp [optional]

/-! ## Repetitions -/

/-- Reads values one after the other. Each is read after what may stand between tokens, which stays
if no value follows. The first argument bounds the number of values. -/
def readMany (r : Reader α) : List Char → List Char → List α × List Char
  | [], s => ([], s)
  | _ :: fuel, s =>
    match r.read (skipBlanks s) with
    | none => ([], s)
    | some (a, t) =>
      let rest := readMany r fuel t
      (a :: rest.1, rest.2)

/-- What is expected after reading values one after the other. -/
def expectMany (r : Reader α) : List Char → List Char → Expectations → Expectations
  | [], s, e => r.expect (skipBlanks s) e
  | _ :: fuel, s, e =>
    match r.read (skipBlanks s) with
    | none => r.expect (skipBlanks s) e
    | some (_, t) => expectMany r fuel t (r.expect (skipBlanks s) e)

/-- Reads values one after the other, as many as there are. A text holds no more values than
characters, as each takes one at least. -/
def many (r : Reader α) : Reader (List α) :=
  ⟨fun s => some (readMany r s s), fun s => expectMany r s s⟩

/-- Reads values one after the other, of which there must be one. -/
def many1 (r : Reader α) : Reader (List α) := do
  let a ← r
  skip
  let as ← many r
  return a :: as

/-- Reads values with commas in between, of which there must be one. -/
def commaSeparated (r : Reader α) : Reader (List α) := do
  let a ← r
  skip
  let as ← many do
    lit ","
    skip
    r
  return a :: as

/-- Reads a list in brackets. -/
def bracketed (r : Reader α) : Reader α := do
  lit "["
  skip
  let a ← r
  skip
  lit "]"
  return a

/-- Reads values with commas in between, with or without brackets; between brackets there may be
none. -/
def listOf (r : Reader α) : Reader (List α) :=
  bracketed ((fun found => found.getD []) <$> optional (commaSeparated r)) <|> commaSeparated r

/-- Reads one or more ends of lines and what may stand between tokens. -/
def newlines : Reader Unit := do
  let _ ← many1 lineEnd
  skip

@[simp] theorem read_many (r : Reader α) (s : List Char) :
    r.many.read s = some (readMany r s s) := rfl

end

end Reader

end Acceptors.Description
