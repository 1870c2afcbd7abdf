import Acceptors.Dfa.Basic

/-!
# Telling states apart

The distinguish table has a place for each pair of states. A pair is marked with a word on which
exactly one of the two states accepts. A pass marks the pairs that some symbol leads to a pair
marked before, and the table is complete when a pass finds nothing.

## Main definitions

* `Dfa.Table`: the marks of all pairs
* `Dfa.initialTable`, `Dfa.refine`: the pairs told apart by the empty word, and one more pass
* `Dfa.refinements`, `Dfa.minimize`: the tables after each pass, and the last of them
* `Dfa.minimizeWith`: the complete table under observation
* `Dfa.Table.classes`: the groups of states that no mark tells apart

## Main results

* `unmarked_refine_lt`: a pass that changes the marks leaves fewer pairs unmarked
* `refinementsFrom_eq`: the tables from one table on
-/

namespace Acceptors

namespace Dfa

/-- The marks of all pairs of states: row `i` holds those of `i` with each smaller state. -/
structure Table where
  names : List String
  marks : List (List (Option Word))
  /-- The number of passes that marked a pair. -/
  passes : Nat
  deriving DecidableEq, Repr

namespace Table

/-! ## Reading a table -/

section

variable (t : Table)

/-- The mark of a pair of states, in either order; a state is never told apart from itself. -/
def mark (p q : Nat) : Option Word :=
  ((t.marks[max p q]?).bind fun row => row[min p q]?).join

/-- The mark of a pair of named states. -/
def witness (p q : String) : Option Word := do
  let i ← t.names.idxOf? p
  let j ← t.names.idxOf? q
  t.mark i j

/-- Whether a pair of named states is marked. -/
def isDistinguished (p q : String) : Bool := (t.witness p q).isSome

/-- The name of the state of the given number. -/
def nameOf (s : Nat) : String := (t.names[s]?).getD ""

/-- The marked pairs in row order, the smaller state first, with their marks. -/
def marked : List (String × String × Word) :=
  (t.marks.mapIdx fun i row =>
    (row.mapIdx fun j m => m.map fun w => (t.nameOf j, t.nameOf i, w)).filterMap id).flatten

/-- The number of unmarked pairs. -/
def unmarked : Nat := t.marks.flatten.countP Option.isNone

/-- The states of a list that no mark tells apart from `s`. -/
def alike (s : Nat) (l : List Nat) : List Nat := l.filter fun r => (t.mark s r).isNone

/-- The states of a list that a mark tells apart from `s`. -/
def apart (s : Nat) (l : List Nat) : List Nat := l.filter fun r => (t.mark s r).isSome

/-- Splits a list of states: each class holds the first state left and those that no mark tells
apart from it. -/
def classesOf : List Nat → List (List Nat)
  | [] => []
  | s :: rest => (s :: t.alike s rest) :: classesOf (t.apart s rest)
  termination_by l => l.length
  decreasing_by exact Nat.lt_succ_of_le (List.length_filter_le ..)

/-- The classes of states by number, in order of their first members. -/
def classIndices : List (List Nat) := t.classesOf (List.range t.names.length)

/-- The classes of states by name. -/
def classes : List (List String) := t.classIndices.map (·.map t.nameOf)

@[simp] theorem classesOf_nil : t.classesOf [] = [] := by rw [classesOf]

theorem classesOf_cons (s : Nat) (rest : List Nat) :
    t.classesOf (s :: rest) = (s :: t.alike s rest) :: t.classesOf (t.apart s rest) := by
  rw [classesOf]

theorem mark_comm (p q : Nat) : t.mark p q = t.mark q p := by
  simp [mark, Nat.max_comm p q, Nat.min_comm p q]

end

end Table

/-! ## Filling the table -/

section

variable (d : Dfa)

/-- The table that tells apart the states that the empty word tells apart. -/
def initialTable : Table where
  names := d.names
  marks := (List.range d.states.length).map fun i =>
    (List.range i).map fun j => if d.acceptsAt i = d.acceptsAt j then none else some []
  passes := 0

/-- The first of the shortest words. -/
def shortest : List Word → Option Word
  | [] => none
  | w :: ws =>
    match shortest ws with
    | none => some w
    | some v => if v.length < w.length then some v else some w

/-- The shortest word that tells `i` and `j` apart by one symbol and a mark of the table; the
smallest symbol wins. -/
def extension? (t : Table) (i j : Nat) : Option Word :=
  shortest <| d.alphabet.filterMap fun c => do
    let p ← d.step? i c
    let q ← d.step? j c
    let w ← t.mark p q
    return c :: w

/-- One pass: every unmarked pair is tried against the marks of the table as it was. -/
def refine (t : Table) : Table where
  names := t.names
  marks := t.marks.mapIdx fun i row => row.mapIdx fun j m => m.or (d.extension? t i j)
  passes := t.passes + 1

theorem countP_isNone_mapIdx_or {α : Type} (row : List (Option α)) :
    ∀ f : Nat → Option α,
      (row.mapIdx fun j m => m.or (f j)) = row ∨
        (row.mapIdx fun j m => m.or (f j)).countP Option.isNone < row.countP Option.isNone := by
  induction row with
  | nil => simp
  | cons m row ih =>
    intro f
    have h := ih fun j => f (j + 1)
    rw [List.mapIdx_cons, List.countP_cons, List.countP_cons]
    -- the rest of the row has no new unmarked place
    have hle : (row.mapIdx fun j m => m.or (f (j + 1))).countP Option.isNone ≤
        row.countP Option.isNone := by
      rcases h with h | h
      · exact Nat.le_of_eq (congrArg _ h)
      · exact Nat.le_of_lt h
    -- a mark stays, so a first place that is marked counts on neither side
    cases m with
    | some a =>
      rcases h with h | h
      · exact .inl (by simp [h])
      · exact .inr (by simpa using h)
    | none =>
      cases hf : f 0 with
      | none =>
        rcases h with h | h
        · left; simp [h]
        · right; simpa using h
      -- the first place gets a mark
      | some a => right; simpa using Nat.lt_succ_of_le hle

theorem countP_isNone_flatten_mapIdx_or {α : Type} (rows : List (List (Option α))) :
    ∀ f : Nat → Nat → Option α,
      (rows.mapIdx fun i row => row.mapIdx fun j m => m.or (f i j)) = rows ∨
        (rows.mapIdx fun i row => row.mapIdx fun j m => m.or (f i j)).flatten.countP
            Option.isNone <
          rows.flatten.countP Option.isNone := by
  induction rows with
  | nil => simp
  | cons row rows ih =>
    intro f
    have h := ih fun i => f (i + 1)
    have hrow := countP_isNone_mapIdx_or row (f 0)
    rw [List.mapIdx_cons, List.flatten_cons, List.flatten_cons, List.countP_append,
      List.countP_append]
    rcases hrow with hrow | hrow <;> rcases h with h | h
    · left; rw [hrow, h]
    · right; rw [hrow]; exact Nat.add_lt_add_left h _
    · right; rw [h]; exact Nat.add_lt_add_right hrow _
    · right; exact Nat.add_lt_add hrow h

theorem unmarked_refine_lt {t : Table} (h : (d.refine t).marks ≠ t.marks) :
    (d.refine t).unmarked < t.unmarked :=
  (countP_isNone_flatten_mapIdx_or t.marks (d.extension? t)).resolve_left h

/-- The tables from `t` on, one for each pass that marks a pair. -/
def refinementsFrom (t : Table) : List Table :=
  if _h : (d.refine t).marks = t.marks then [t] else t :: refinementsFrom (d.refine t)
  termination_by t.unmarked
  decreasing_by exact unmarked_refine_lt d _h

theorem refinementsFrom_eq (t : Table) :
    d.refinementsFrom t =
      if (d.refine t).marks = t.marks then [t] else t :: d.refinementsFrom (d.refine t) := by
  rw [refinementsFrom]
  split <;> rfl

/-- The initial table and the tables after each pass that marks a pair. -/
def refinements : List Table := d.refinementsFrom d.initialTable

/-- The complete table: a further pass marks nothing. -/
def minimize : Table := d.refinements.getLastD d.initialTable

section

variable {σ : Type} (observe : σ → Table → σ)

/-- Passes from `t` on until one marks nothing. The observer, which has a state of its own, is handed
the table after each of the others. -/
def refineWith (s : σ) (t : Table) : σ × Table :=
  if _h : (d.refine t).marks = t.marks then (s, t)
  else refineWith (observe s (d.refine t)) (d.refine t)
  termination_by t.unmarked
  decreasing_by exact unmarked_refine_lt d _h

/-- The complete table and the state that the observer is left in. It is handed the first table
before any pass. -/
def minimizeWith (start : σ) : σ × Table :=
  d.refineWith observe (observe start d.initialTable) d.initialTable

end

end

end Dfa

end Acceptors
