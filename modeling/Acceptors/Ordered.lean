/-!
# Increasing lists

Alphabets, undefined labels and variable names are kept as lists in increasing order without
repetition, so that what is shown does not depend on the order in which it was found.

## Main definitions

* `insertOrdered`: puts an element at its place, unless it is there
* `ascending`: the elements of a list, each once, in increasing order

## Main results

* `mem_ascending`: the same elements
* `pairwise_ascending`: strictly increasing
-/

namespace Acceptors

section

variable {α : Type} [DecidableEq α] [LT α] [DecidableLT α]

/-- Puts `a` at its place in an increasing list, unless it is there already. -/
def insertOrdered (a : α) : List α → List α
  | [] => [a]
  | b :: l => if a < b then a :: b :: l else if a = b then b :: l else b :: insertOrdered a l

/-- The elements of a list, each once, in increasing order. -/
def ascending (l : List α) : List α := l.foldr insertOrdered []

@[simp] theorem mem_insertOrdered {a b : α} {l : List α} :
    b ∈ insertOrdered a l ↔ b = a ∨ b ∈ l := by
  induction l with
  | nil => simp [insertOrdered]
  | cons c l ih =>
    unfold insertOrdered
    split
    · simp
    · split
      · next h => subst h; simp
      · simp only [List.mem_cons, ih]
        constructor <;> rintro (h | h | h) <;> simp [h]

@[simp] theorem mem_ascending {a : α} {l : List α} : a ∈ ascending l ↔ a ∈ l := by
  induction l with
  | nil => simp [ascending]
  | cons b l ih =>
    have : ascending (b :: l) = insertOrdered b (ascending l) := rfl
    simp [this, ih]

theorem pairwise_insertOrdered (trans : ∀ {a b c : α}, a < b → b < c → a < c)
    (total : ∀ a b : α, a < b ∨ a = b ∨ b < a) {a : α} {l : List α}
    (h : l.Pairwise (· < ·)) : (insertOrdered a l).Pairwise (· < ·) := by
  induction l with
  | nil => simp [insertOrdered]
  | cons b l ih =>
    obtain ⟨hb, hl⟩ := List.pairwise_cons.mp h
    unfold insertOrdered
    split
    · next hab =>
      -- `a` stands before `b`, and `b` before all the others
      refine List.pairwise_cons.mpr ⟨fun c hc => ?_, h⟩
      rcases List.mem_cons.mp hc with rfl | hc
      · exact hab
      · exact trans hab (hb c hc)
    · split
      · exact h
      · next hab hne =>
        -- `a` stands behind `b`, somewhere among the others
        refine List.pairwise_cons.mpr ⟨fun c hc => ?_, ih hl⟩
        rcases mem_insertOrdered.mp hc with rfl | hc
        · exact (total c b).resolve_left hab |>.resolve_left hne
        · exact hb c hc

theorem pairwise_ascending (trans : ∀ {a b c : α}, a < b → b < c → a < c)
    (total : ∀ a b : α, a < b ∨ a = b ∨ b < a) (l : List α) :
    (ascending l).Pairwise (· < ·) := by
  induction l with
  | nil => exact List.Pairwise.nil
  | cons a l ih => exact pairwise_insertOrdered trans total ih

end

end Acceptors
