import Acceptors.Loading.Load

/-!
# Samples

## Main definitions

* `Sample`: a description that comes with the library
* `Sample.all`: the samples in order
* `Sample.at?`, `Sample.named?`: samples by place and by name
-/

namespace Acceptors

/-- A description with the name of its file. -/
structure Sample where
  file : String
  lines : List String
  deriving DecidableEq, Repr

namespace Sample

/-- Words of the same number of two letters, one after the other. -/
def anbn : Sample where
  file := "anbn.cfg"
  lines := [
    "// a^n b^n for n >= 0, in Chomsky Normal Form.",
    "name: a^n b^n",
    "rules:",
    "  S -> A T | A B | ε",
    "  T -> S2 B",
    "  S2 -> A T | A B",
    "  A -> a",
    "  B -> b",
    "checks: '', ab, aabb, aaabbb, aab, ba"]

/-- Words of balanced brackets. -/
def balanced : Sample where
  file := "balanced.cfg"
  lines := [
    "// Balanced parentheses. S0 derives the empty word and never occurs in a body.",
    "name: Balanced parentheses",
    "rules:",
    "  S0 -> S S | L R | L C | ε",
    "  S -> S S | L R | L C",
    "  C -> S R",
    "  L -> '('",
    "  R -> ')'",
    "checks: (), (()), ()(), )(, ((), ''"]

/-- Flips the digits of a binary word. -/
def binaryComplement : Sample where
  file := "binary-complement.tm"
  lines := [
    "// Flips every bit of a binary word, then stops on the first blank.",
    "name: Binary complement",
    "accepting: done",
    "rules:",
    "  flip:",
    "    0 -> 1, R, flip",
    "    1 -> 0, R, flip",
    "    _ -> _, S, done",
    "  done:",
    "checks: 1101, 0, '', 10a"]

/-- Guesses where a factor starts. -/
def containsAba : Sample where
  file := "contains-aba.tm"
  lines := [
    "// Accepts the words over \x7ba, b\x7d containing aba by guessing where it starts.",
    "name: Contains aba",
    "accepting: found",
    "rules:",
    "  scan:",
    "    a -> a, R, scan",
    "    a -> a, R, saw_a",
    "    b -> b, R, scan",
    "  saw_a:",
    "    b -> b, R, saw_ab",
    "  saw_ab:",
    "    a -> a, R, found",
    "  found:",
    "checks: aba, babab, abba, ''"]

/-- Copies a word to a second tape. -/
def twoTapeCopy : Sample where
  file := "two-tape-copy.tm"
  lines := [
    "// Copies the input onto the second tape, then rewinds the second head.",
    "name: Two-tape copy",
    "tapes: 2",
    "accepting: done",
    "rules:",
    "  copy:",
    "    [a, _] -> [a, a], [R, R], copy",
    "    [b, _] -> [b, b], [R, R], copy",
    "    [_, _] -> [_, _], [S, L], rewind",
    "  rewind:",
    "    [_, a] -> [_, a], [S, L], rewind",
    "    [_, b] -> [_, b], [S, L], rewind",
    "    [_, _] -> [_, _], [S, R], done",
    "  done:",
    "checks: abba, '', b, abc"]

/-- Counts a letter modulo two, with superfluous states. -/
def evenA : Sample where
  file := "even-a.dfa"
  lines := [
    "// Even number of a, with every state doubled. Minimization merges the copies.",
    "name: Even number of a",
    "accepting: [e1, e2]",
    "alphabet: [a, b]",
    "rules:",
    "  e1:",
    "    a -> o1",
    "    b -> e2",
    "  e2:",
    "    a -> o2",
    "    b -> e1",
    "  o1:",
    "    a -> e2",
    "    b -> o2",
    "  o2:",
    "    a -> e1",
    "    b -> o1",
    "checks: '', a, aa, bab, abab, ba"]

/-- Counts binary digits. -/
def popcount : Sample where
  file := "popcount.goto"
  lines := [
    "// Counts the 1 bits in the binary representation of x.",
    "name: Popcount",
    "input: x",
    "output: y",
    "program:",
    "  1: if x = 0 goto 6",
    "  2: b := x mod 2",
    "  3: y := y + b",
    "  4: x := x div 2",
    "  5: goto 1",
    "  6: halt",
    "checks: 0, 7, 11, 1024"]

/-- Multiplies the numbers up to the input. -/
def factorial : Sample where
  file := "factorial.goto"
  lines := [
    "// n! by repeated multiplication.",
    "name: Factorial",
    "input: n",
    "output: f",
    "program:",
    "  init: f := 1",
    "  test: if n <= 1 goto done",
    "  mul: f := f * n",
    "  dec: n := n - 1",
    "  loop: goto test",
    "  done: halt",
    "checks: 0, 1, 5, 10"]

/-- The samples in order. -/
def all : List Sample :=
  [anbn, balanced, binaryComplement, containsAba, twoTapeCopy, evenA, popcount, factorial]

section

variable (s : Sample)

/-- The text of a sample: its lines, each ended by a line feed. -/
def text : List Char := s.lines.flatMap fun l => l.toList ++ ['\n']

/-- The definition that a sample holds. -/
def definition : Except Fault Definition :=
  let result : Except Fault Definition :=
    match Path.kind? s.file with
    | none => .error (.untypedFile s.file)
    | some kind => Description.parse kind s.text
  result.mapError (.failedSample s.file)

/-- The name of what a sample defines, or else of its file. -/
def name : String :=
  match s.definition with
  | .ok d => d.name
  | .error _ => Path.stem s.file

/-- Whether a sample goes by the given name: its own, or that of its file with or without the
extension. -/
def isNamed (name : String) : Bool :=
  s.name = name || s.file = name || Path.stem s.file = name

end

/-- The names of all samples. -/
def names : List String := all.map name

/-- The sample at the given place. -/
def at? (index : Nat) : Except Fault Sample :=
  match all[index]? with
  | some s => .ok s
  | none => .error (.noSampleAt index)

/-- The first sample that goes by the given name. -/
def named? (name : String) : Option Sample := all.find? fun s => s.isNamed name

/-- The definition of the first sample that goes by the given name. -/
def definitionOf (name : String) : Except Fault Definition :=
  match named? name with
  | some s => s.definition
  | none => .error (.noSample name)

end Sample

end Acceptors
