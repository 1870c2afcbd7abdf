/-!
# Places in a text

A place is counted in characters from the start of the text; for a reader of the text it is a line
and a column, both counted from one. A line ends at a line feed, which still belongs to it.

## Main definitions

* `Position`, `positionAt`: the line and column of a place
* `lines`: the lines of a text, line feeds included
* `Place`: a point of a text, or the stretch between two points
-/

namespace Acceptors.Text

/-- A line and a column, both counted from one. -/
structure Position where
  line : Nat
  column : Nat
  deriving DecidableEq, Repr

/-- The position after the first `offset` characters of the text. -/
def positionAt (text : List Char) (offset : Nat) : Position :=
  let before := text.take offset
  ⟨before.count '\n' + 1, (before.reverse.takeWhile (fun c => c ≠ '\n')).length + 1⟩

/-- The lines of a text; the line feed that ends a line belongs to it. -/
def lines : List Char → List (List Char)
  | [] => []
  | c :: s =>
    if c = '\n' then [c] :: lines s
    else match lines s with
      | [] => [[c]]
      | l :: ls => (c :: l) :: ls

@[simp] theorem flatten_lines (s : List Char) : (lines s).flatten = s := by
  induction s with
  | nil => rfl
  | cons c s ih =>
    unfold lines
    split
    · simp [ih]
    · split
      · next h => simp [h] at ih; simp [← ih]
      · next h => simp [h] at ih; simp [← ih]

/-- A point of a text, or the stretch from one point up to another, in characters. -/
inductive Place where
  | point (offset : Nat)
  | stretch (start stop : Nat)
  deriving DecidableEq, Repr

end Acceptors.Text
