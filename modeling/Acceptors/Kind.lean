/-!
# Kinds of description

## Main definitions

* `Kind`: grammars, machines, deterministic automata and programs
* `Kind.fileExtension`, `Kind.ofExtension?`: how the name of a file tells the kind

## Main results

* `ofExtension?_eq_some_iff`: an extension tells exactly its kind
-/

namespace Acceptors

/-- What a description describes. -/
inductive Kind where
  | grammar | machine | dfa | goto
  deriving DecidableEq, Repr

namespace Kind

/-- All kinds in order. -/
def all : List Kind := [grammar, machine, dfa, goto]

/-- The extension of the files of a kind. -/
def fileExtension : Kind → String
  | grammar => "cfg"
  | machine => "tm"
  | dfa => "dfa"
  | goto => "goto"

/-- The kind of the files with an extension. -/
def ofExtension? (extension : String) : Option Kind :=
  all.find? fun k => k.fileExtension = extension

theorem ofExtension?_eq_some_iff {extension : String} {k : Kind} :
    ofExtension? extension = some k ↔ k.fileExtension = extension := by
  constructor
  · intro h
    simpa using List.find?_some h
  · rintro rfl
    cases k <;> decide

end Kind

end Acceptors
