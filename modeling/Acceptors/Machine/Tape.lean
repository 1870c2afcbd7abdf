import Acceptors.Word

/-!
# Tapes

A tape holds a stretch of symbols and a head, which may stand outside the stretch; what lies
outside is blank. A write outside the stretch extends it up to the head. The place of the head is
counted from the first symbol of the stretch.

## Main definitions

* `Direction`: where a head moves
* `Tape`, `Tape.read`, `Tape.write`, `Tape.shift`
* `Tape.cell`: the symbol at any distance from the head
* `Tape.content`, `Tape.text`: the stretch without blanks at its ends, and the tape with its head

## Main results

* `cell_shift`, `cell_write`: how the cells around the head change
-/

namespace Acceptors

/-- Where a head moves. -/
inductive Direction where
  | left | right | stay
  deriving DecidableEq, Repr

namespace Direction

/-- The change of the place of a head. -/
def offset : Direction → Int
  | left => -1
  | right => 1
  | stay => 0

/-- The letter of a direction. -/
def text : Direction → String
  | left => "L"
  | right => "R"
  | stay => "S"

end Direction

/-- The blank of a tape for which none is chosen. -/
def defaultBlank : Char := '#'

/-- A stretch of symbols, the place of the head, and the symbol that fills the rest. -/
structure Tape where
  symbols : List Char
  head : Int
  blank : Char
  deriving DecidableEq, Repr

namespace Tape

/-- The tape that holds a word, with its head on the first symbol. -/
def ofWord (w : Word) (blank : Char) : Tape := ⟨w, 0, blank⟩

section

variable (t : Tape)

/-- The symbol at the given distance from the first symbol of the stretch. -/
def symbolAt (place : Int) : Char :=
  if place < 0 then t.blank else (t.symbols[place.toNat]?).getD t.blank

/-- The symbol at the given distance from the head. -/
def cell (distance : Int) : Char := t.symbolAt (t.head + distance)

/-- The symbol under the head. -/
def read : Char := t.symbolAt t.head

/-- Writes a symbol under the head; the stretch is extended if the head stands outside it. -/
def write (c : Char) : Tape :=
  if t.head < 0 then
    { t with symbols := c :: List.replicate (t.head.natAbs - 1) t.blank ++ t.symbols, head := 0 }
  else
    let missing := t.head.toNat + 1 - t.symbols.length
    { t with symbols := (t.symbols ++ List.replicate missing t.blank).set t.head.toNat c }

/-- Moves the head by one cell. -/
def shift (d : Direction) : Tape := { t with head := t.head + d.offset }

/-- The stretch without blanks at its ends. -/
def content : Word :=
  ((t.symbols.dropWhile (· = t.blank)).reverse.dropWhile (· = t.blank)).reverse

/-- The stretch and what lies between it and the head, the symbol under the head in brackets. -/
def text : String :=
  let under := ['[', t.read, ']']
  String.ofList <|
    if t.head < 0 then under ++ List.replicate (t.head.natAbs - 1) t.blank ++ t.symbols
    else
      let place := t.head.toNat
      t.symbols.take place ++ List.replicate (place - t.symbols.length) t.blank ++ under ++
        t.symbols.drop (place + 1)

/-! ## Cells around the head -/

@[simp] theorem cell_zero : t.cell 0 = t.read := by simp [cell, read]

theorem cell_shift (d : Direction) (i : Int) : (t.shift d).cell i = t.cell (d.offset + i) := by
  simp only [cell, shift, symbolAt, Int.add_assoc]

theorem symbolAt_of_neg {t : Tape} {i : Int} (h : i < 0) : t.symbolAt i = t.blank := by
  simp [symbolAt, h]

theorem symbolAt_of_nonneg {t : Tape} {i : Int} (h : 0 ≤ i) :
    t.symbolAt i = (t.symbols[i.toNat]?).getD t.blank := by
  simp [symbolAt, Int.not_lt.mpr h]

theorem cell_write (c : Char) (i : Int) :
    (t.write c).cell i = if i = 0 then c else t.cell i := by
  unfold cell write
  split
  · next hneg =>
    -- the stretch grows to the left, and its first symbol is the one written
    simp only [Int.zero_add]
    by_cases hi : i < 0
    · rw [symbolAt_of_neg hi, symbolAt_of_neg (by omega), if_neg (by omega)]
    · rw [symbolAt_of_nonneg (by omega)]
      -- right of the head lies the gap that was blank, and behind it the stretch of before
      by_cases h0 : i = 0
      · simp [h0]
      · rw [if_neg h0]
        obtain ⟨k, hk⟩ : ∃ k : Nat, i = k + 1 := ⟨(i - 1).toNat, by omega⟩
        have hik : i.toNat = k + 1 := by omega
        simp only [hik, List.cons_append, List.getElem?_cons_succ, List.getElem?_append,
          List.length_replicate, List.getElem?_replicate]
        by_cases hlt : k < t.head.natAbs - 1
        · rw [symbolAt_of_neg (by omega)]
          simp [hlt]
        · rw [symbolAt_of_nonneg (by omega)]
          simp only [hlt, if_false]
          congr 2
          omega
  · next hpos =>
    simp only
    -- the stretch grows to the right up to the head, if at all
    by_cases hneg : t.head + i < 0
    · rw [symbolAt_of_neg hneg, symbolAt_of_neg hneg, if_neg (by omega)]
    · rw [symbolAt_of_nonneg (by omega), symbolAt_of_nonneg (by omega)]
      simp only [List.getElem?_set, List.length_append, List.length_replicate]
      by_cases h0 : i = 0
      · subst h0
        simp only [Int.add_zero, if_true]
        rw [if_pos (by omega)]
        rfl
      · rw [if_neg (by omega), if_neg h0, List.getElem?_append, List.getElem?_replicate]
        -- beyond the old stretch there are only blanks, whether they are stored or not
        by_cases hlt : (t.head + i).toNat < t.symbols.length
        · simp [hlt]
        · rw [if_neg hlt, List.getElem?_eq_none (l := t.symbols) (by omega)]
          split <;> rfl

end

end Tape

end Acceptors
