import Acceptors.Machine.Tape

/-!
# Two-way tapes

A two-way tape has a symbol at every integer and a head. It is what the stretch of a tape stands
for: the cells around the two heads agree, whatever is written and however the heads move.

## Main definitions

* `TwoWayTape`, `TwoWayTape.read`, `TwoWayTape.write`, `TwoWayTape.shift`
* `Tape.Represents`: the cells around the heads agree

## Main results

* `represents_ofWord`, `Represents.write`, `Represents.shift`
-/

namespace Acceptors

/-- A symbol at every integer, and the place of the head. -/
structure TwoWayTape where
  cells : Int → Char
  head : Int

namespace TwoWayTape

/-- The tape that holds a word from zero on and the blank elsewhere, with its head at zero. -/
def ofWord (w : Word) (blank : Char) : TwoWayTape where
  cells place := if place < 0 then blank else (w[place.toNat]?).getD blank
  head := 0

section

variable (r : TwoWayTape)

/-- The symbol under the head. -/
def read : Char := r.cells r.head

/-- Writes a symbol under the head. -/
def write (c : Char) : TwoWayTape :=
  { r with cells := fun place => if place = r.head then c else r.cells place }

/-- Moves the head to the cell on its left or right, or leaves it where it is. -/
def shift : Direction → TwoWayTape
  | .left => { r with head := r.head - 1 }
  | .right => { r with head := r.head + 1 }
  | .stay => r

@[simp] theorem cells_shift (d : Direction) : (r.shift d).cells = r.cells := by cases d <;> rfl

end

end TwoWayTape

namespace Tape

/-- The cells around the heads agree. -/
def Represents (t : Tape) (r : TwoWayTape) : Prop := ∀ i, t.cell i = r.cells (r.head + i)

theorem represents_ofWord (w : Word) (blank : Char) :
    (ofWord w blank).Represents (.ofWord w blank) := by
  intro i
  simp [cell, symbolAt, ofWord, TwoWayTape.ofWord]

section

variable {t : Tape} {r : TwoWayTape}

theorem Represents.read_eq (h : t.Represents r) : t.read = r.read := by
  simpa [TwoWayTape.read] using h 0

theorem Represents.write (h : t.Represents r) (c : Char) : (t.write c).Represents (r.write c) := by
  intro i
  rw [cell_write]
  by_cases hi : i = 0
  · simp [hi, TwoWayTape.write]
  · have hne : r.head + i ≠ r.head := by omega
    simpa [hi, TwoWayTape.write, hne] using h i

theorem Represents.shift (h : t.Represents r) (d : Direction) :
    (t.shift d).Represents (r.shift d) := by
  intro i
  have hplace : r.head + (d.offset + i) = (r.shift d).head + i := by
    cases d <;> simp only [TwoWayTape.shift, Direction.offset] <;> omega
  rw [cell_shift, h, hplace, TwoWayTape.cells_shift]

end

end Tape

end Acceptors
