import Acceptors.Machine.TwoWayTape

/-!
# Histories of tapes

A tape is changed by writing under its head and by moving its head, in any order and any number of
times. The stretch that is stored grows on both sides on the way and its first symbol moves, so
places in the stretch of two moments do not compare. The places around the head do: they hold what
the two-way tape with the same history holds around its head.

## Main definitions

* `TapeAction`: what is done to a tape at once
* `Tape.performAll`, `TwoWayTape.performAll`: the tape after a history of actions

## Main results

* `Represents.perform`, `Represents.performAll`: the cells around the heads agree after one action
  and after any number of them
* `performAll_ofWord_agree`: a tape that held a word agrees with the two-way tape that held it
-/

namespace Acceptors

/-- What is done to a tape at once. -/
inductive TapeAction where
  /-- A symbol is written under the head. -/
  | write (c : Char)
  /-- The head moves by one cell, or stays. -/
  | shift (d : Direction)
  deriving DecidableEq, Repr

namespace Tape

/-- The tape after an action. -/
def perform (t : Tape) : TapeAction → Tape
  | .write c => t.write c
  | .shift d => t.shift d

/-- The tape after a history of actions, the first one first. -/
def performAll (t : Tape) (history : List TapeAction) : Tape := history.foldl perform t

end Tape

namespace TwoWayTape

/-- The tape after an action. -/
def perform (r : TwoWayTape) : TapeAction → TwoWayTape
  | .write c => r.write c
  | .shift d => r.shift d

/-- The tape after a history of actions, the first one first. -/
def performAll (r : TwoWayTape) (history : List TapeAction) : TwoWayTape :=
  history.foldl perform r

end TwoWayTape

namespace Tape

section

variable {t : Tape} {r : TwoWayTape}

theorem Represents.perform (h : t.Represents r) (action : TapeAction) :
    (t.perform action).Represents (r.perform action) := by
  cases action with
  | write c => exact h.write c
  | shift d => exact h.shift d

/-- What is around the heads stays the same along a history. -/
theorem Represents.performAll (h : t.Represents r) (history : List TapeAction) :
    (t.performAll history).Represents (r.performAll history) := by
  induction history generalizing t r with
  | nil => exact h
  | cons action history ih => exact ih (h.perform action)

end

/-- **A tape stands for a two-way tape.** Whatever is done to a tape that holds a word, the symbol
under its head and the cells at all distances from it are those of the two-way tape to which the
same is done. A history may stop after any of its actions, so this holds after each of them. -/
theorem performAll_ofWord_agree (w : Word) (blank : Char) (history : List TapeAction) :
    ((ofWord w blank).performAll history).read =
        ((TwoWayTape.ofWord w blank).performAll history).read ∧
      ∀ i, ((ofWord w blank).performAll history).cell i =
        ((TwoWayTape.ofWord w blank).performAll history).cells
          (((TwoWayTape.ofWord w blank).performAll history).head + i) := by
  have h : ((ofWord w blank).performAll history).Represents
      ((TwoWayTape.ofWord w blank).performAll history) :=
    (represents_ofWord w blank).performAll history
  exact ⟨h.read_eq, h⟩

-- a write two cells left of the stretch leaves a gap, and places are counted from it afterwards
example : ((ofWord ['a', 'b'] '_').performAll
    [.shift .left, .shift .left, .write 'x', .shift .right]) =
      ⟨['x', '_', 'a', 'b'], 1, '_'⟩ := by decide

end Tape

end Acceptors
