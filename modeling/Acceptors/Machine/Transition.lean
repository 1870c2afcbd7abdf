import Acceptors.Machine.Tape

/-!
# Transition tables

A transition of a machine fires in a state when the symbols under all heads are those it reads.
The table keeps the transitions of all states in increasing order of the state and of what is
read; those that agree in both keep the order in which they were inserted.

## Main definitions

* `Transition`: what is read, written and moved, and the state that follows
* `TransitionTable`, `TransitionTable.insert`, `TransitionTable.find`
-/

namespace Acceptors

/-- What a machine reads, writes and moves on each tape, and the state that follows. -/
structure Transition where
  read : List Char
  write : List Char
  directions : List Direction
  next : String
  deriving DecidableEq, Repr

/-- The transitions of all states, each with the state that it leaves, in order. -/
structure TransitionTable where
  entries : List (String × Transition)
  deriving DecidableEq, Repr

namespace TransitionTable

/-- The table without transitions. -/
def empty : TransitionTable := ⟨[]⟩

/-- Whether an entry comes before another one by its state or, in one state, by what it reads. -/
def precedes (e f : String × Transition) : Bool :=
  e.1 < f.1 || (e.1 = f.1 && e.2.read < f.2.read)

/-- Puts an entry behind all entries that it does not precede. -/
def insertEntry (e : String × Transition) : List (String × Transition) → List (String × Transition)
  | [] => [e]
  | f :: l => if precedes e f then e :: f :: l else f :: insertEntry e l

section

variable (t : TransitionTable)

/-- Adds a transition that leaves the given state. -/
def insert (state : String) (transition : Transition) : TransitionTable :=
  ⟨insertEntry (state, transition) t.entries⟩

/-- The table with the given transitions inserted one after the other. -/
def ofList (rules : List (String × Transition)) : TransitionTable :=
  rules.foldl (fun t e => t.insert e.1 e.2) empty

/-- The transitions of a state that read the given symbols, in the order of their insertion. -/
def find (state : String) (symbols : List Char) : List Transition :=
  (t.entries.filter fun e => e.1 = state && e.2.read = symbols).map Prod.snd

/-- The number of transitions. -/
def size : Nat := t.entries.length

/-- Whether there is no transition. -/
def isEmpty : Bool := t.entries.isEmpty

@[simp] theorem mem_insertEntry {e f : String × Transition} {l : List (String × Transition)} :
    f ∈ insertEntry e l ↔ f = e ∨ f ∈ l := by
  induction l with
  | nil => simp [insertEntry]
  | cons g l ih =>
    unfold insertEntry
    split
    · simp
    · simp only [List.mem_cons, ih]
      constructor <;> rintro (h | h | h) <;> simp [h]

theorem size_insert (state : String) (transition : Transition) :
    (t.insert state transition).size = t.size + 1 := by
  have h : ∀ l, (insertEntry (state, transition) l).length = l.length + 1 := by
    intro l
    induction l with
    | nil => rfl
    | cons f l ih => unfold insertEntry; split <;> simp [ih]
  exact h t.entries

/-- The entries of a table are the rules that were inserted. -/
theorem mem_entries_ofList {rules : List (String × Transition)} {e : String × Transition} :
    e ∈ (ofList rules).entries ↔ e ∈ rules := by
  have hfold : ∀ t : TransitionTable, e ∈ (rules.foldl (fun t e => t.insert e.1 e.2) t).entries ↔
      e ∈ rules ∨ e ∈ t.entries := by
    induction rules with
    | nil => simp
    | cons e' rules ih =>
      intro t
      rw [List.foldl_cons, ih, insert, mem_insertEntry,
        List.mem_cons, or_left_comm, or_assoc]
  rw [ofList, hfold, empty]
  simp

theorem mem_find {transition : Transition} {state : String} {symbols : List Char} :
    transition ∈ t.find state symbols ↔
      (state, transition) ∈ t.entries ∧ transition.read = symbols := by
  simp only [find, List.mem_map, List.mem_filter, Bool.and_eq_true, decide_eq_true_eq,
    Prod.exists, exists_eq_right]
  constructor
  · rintro ⟨q, hmem, rfl, hread⟩
    exact ⟨hmem, hread⟩
  · rintro ⟨hmem, hread⟩
    exact ⟨state, hmem, rfl, hread⟩

end

end TransitionTable

end Acceptors
