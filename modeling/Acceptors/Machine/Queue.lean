/-!
# Queues

A queue keeps what waits in the order in which it came. The back is kept in reverse, so that
elements are added and taken one at a time at no cost.

## Main definitions

* `Queue`, `Queue.toList`: a queue and the list of what waits
* `Queue.push`, `Queue.pushAll`, `Queue.pop?`

## Main results

* `toList_push`, `toList_pushAll`, `toList_of_pop?`, `exists_pop?_of_toList`, `pop?_eq_none_iff`: the
  operations on the list
* `size_eq_length`: the number of elements that wait
-/

namespace Acceptors

/-- A queue: the front in order, the back in reverse, and their number of elements. -/
structure Queue (α : Type) where
  front : List α
  back : List α
  size : Nat
  size_eq : size = front.length + back.length := by simp

namespace Queue

section

variable {α : Type}

/-- The elements that wait, the first one first. -/
def toList (q : Queue α) : List α := q.front ++ q.back.reverse

/-- The queue of a single element. -/
def single (a : α) : Queue α := ⟨[a], [], 1, rfl⟩

/-- Adds an element at the end. -/
def push (q : Queue α) (a : α) : Queue α :=
  ⟨q.front, a :: q.back, q.size + 1, by rw [q.size_eq, List.length_cons, Nat.add_assoc]⟩

/-- Adds elements at the end, the first one first. -/
def pushAll (q : Queue α) (l : List α) : Queue α := l.foldl push q

/-- Takes the first element. -/
def pop? (q : Queue α) : Option (α × Queue α) :=
  match hf : q.front with
  | a :: front =>
    some (a, ⟨front, q.back, q.size - 1, by have := q.size_eq; simp [hf] at this; omega⟩)
  | [] =>
    -- the front is used up, so the back is turned around
    match hb : q.back.reverse with
    | [] => none
    | a :: front =>
      some (a, ⟨front, [], q.size - 1, by
        have := q.size_eq
        have hl := congrArg List.length hb
        simp [hf] at this hl
        simp
        omega⟩)

@[simp] theorem toList_single (a : α) : (single a).toList = [a] := rfl

@[simp] theorem toList_push (q : Queue α) (a : α) : (q.push a).toList = q.toList ++ [a] := by
  simp [toList, push]

@[simp] theorem toList_pushAll (q : Queue α) (l : List α) :
    (q.pushAll l).toList = q.toList ++ l := by
  induction l generalizing q with
  | nil => simp [pushAll]
  | cons a l ih =>
    have := ih (q.push a)
    simp only [pushAll, List.foldl_cons] at this ⊢
    simp [this]

theorem size_eq_length (q : Queue α) : q.size = q.toList.length := by
  simp [toList, q.size_eq]

theorem toList_of_pop? {q r : Queue α} {a : α} (h : q.pop? = some (a, r)) :
    q.toList = a :: r.toList := by
  unfold pop? at h
  split at h
  · next front hf =>
    simp only [Option.some.injEq, Prod.mk.injEq] at h
    obtain ⟨rfl, rfl⟩ := h
    simp [toList, hf]
  · next hf =>
    split at h
    · simp at h
    · next front hb =>
      simp only [Option.some.injEq, Prod.mk.injEq] at h
      obtain ⟨rfl, rfl⟩ := h
      simp [toList, hf, hb]

theorem pop?_eq_none_iff {q : Queue α} : q.pop? = none ↔ q.toList = [] := by
  constructor
  · intro h
    unfold pop? at h
    split at h
    · simp at h
    · next hf =>
      split at h
      · next hb => simp [toList, hf, hb]
      · simp at h
  · intro h
    match hp : q.pop? with
    | none => rfl
    | some (a, r) => simp [toList_of_pop? hp] at h

theorem exists_pop?_of_toList {q : Queue α} {a : α} {l : List α} (h : q.toList = a :: l) :
    ∃ r, q.pop? = some (a, r) ∧ r.toList = l := by
  cases hp : q.pop? with
  | none => simp [pop?_eq_none_iff.mp hp] at h
  | some next =>
    obtain ⟨b, r⟩ := next
    rw [toList_of_pop? hp] at h
    obtain ⟨rfl, rfl⟩ := List.cons.inj h
    exact ⟨r, rfl, rfl⟩

end

end Queue

end Acceptors
