import Acceptors.Machine.Search

/-!
# Steps and levels

The configurations that a machine can reach form a tree below the initial one. The children of a
configuration are its successors in the order in which the search queues them; a level holds what
lies at one depth.

## Main definitions

* `Machine.Step`, `Machine.Reaches`: one transition, and a number of transitions
* `Machine.IsAccepting`: no transition may fire and the state is the final one
* `Machine.level`: the configurations at a depth, in the order of the tree

## Main results

* `mem_successors`: the successors are what a step leads to
* `mem_level`: a level holds what is reached by as many transitions
* `steps_of_reaches`: a configuration counts the transitions on the way to it
* `Reaches.preserves`: what each transition preserves is preserved by a run
-/

namespace Acceptors

namespace Machine

section

variable (m : Machine)

/-- A transition that may fire leads from one configuration to the other. -/
def Step (c d : Configuration) : Prop := ∃ t ∈ m.transitions c, c.apply t = d

/-- As many transitions as the number says lead from one configuration to the other. -/
inductive Reaches : Nat → Configuration → Configuration → Prop where
  | refl (c : Configuration) : Reaches 0 c c
  | head {n : Nat} {c d e : Configuration} (first : m.Step c d) (rest : Reaches n d e) :
    Reaches (n + 1) c e

/-- No transition may fire, and the state is the final one. -/
def IsAccepting (c : Configuration) : Prop := m.transitions c = [] ∧ c.state = m.final

/-- The configurations at a depth below those of a list. -/
def below (l : List Configuration) : Nat → List Configuration
  | 0 => l
  | n + 1 => below (l.flatMap m.successors) n

/-- The configurations at a depth below the initial one. -/
def level (w : Word) (n : Nat) : List Configuration := m.below [m.initialConfiguration w] n

variable {m}

theorem accepting_iff {c : Configuration} : m.accepting c = true ↔ m.IsAccepting c := by
  simp [accepting, IsAccepting]

@[simp] theorem mem_successors {c d : Configuration} : d ∈ m.successors c ↔ m.Step c d := by
  unfold successors Step
  cases m.transitions c with
  | nil => simp
  | cons first others =>
    simp only [List.mem_append, List.mem_map, List.mem_cons, List.not_mem_nil, or_false]
    constructor
    · rintro (⟨t, ht, rfl⟩ | rfl)
      · exact ⟨t, .inr ht, rfl⟩
      · exact ⟨first, .inl rfl, rfl⟩
    · rintro ⟨t, rfl | ht, rfl⟩
      -- the first transition leads to the last child
      · exact .inr rfl
      · exact .inl ⟨t, ht, rfl⟩

/-! ## Levels -/

theorem below_add (l : List Configuration) (k n : Nat) :
    m.below l (k + n) = m.below (m.below l k) n := by
  induction k generalizing l with
  | zero => rw [Nat.zero_add]; rfl
  | succ k ih => rw [Nat.succ_add]; exact ih _

theorem below_nil (n : Nat) : m.below [] n = [] := by
  induction n with
  | zero => rfl
  | succ n ih => exact ih

theorem mem_below {l : List Configuration} {n : Nat} {d : Configuration} :
    d ∈ m.below l n ↔ ∃ c ∈ l, m.Reaches n c d := by
  induction n generalizing l with
  | zero =>
    constructor
    · exact fun h => ⟨d, h, .refl d⟩
    · rintro ⟨c, hc, hr⟩
      cases hr
      exact hc
  | succ n ih =>
    rw [below, ih]
    constructor
    · rintro ⟨e, he, hr⟩
      obtain ⟨c, hc, hce⟩ := List.mem_flatMap.mp he
      exact ⟨c, hc, .head (mem_successors.mp hce) hr⟩
    · rintro ⟨c, hc, hr⟩
      cases hr with
      | head first rest =>
        exact ⟨_, List.mem_flatMap.mpr ⟨c, hc, mem_successors.mpr first⟩, rest⟩

/-- A level holds what is reached by as many transitions. -/
theorem mem_level {w : Word} {n : Nat} {d : Configuration} :
    d ∈ m.level w n ↔ m.Reaches n (m.initialConfiguration w) d := by
  simp [level, mem_below]

/-- Once a level is empty, so are those below it. -/
theorem level_eq_nil_of_le {w : Word} {n k : Nat} (hnk : n ≤ k) (h : m.level w n = []) :
    m.level w k = [] := by
  obtain ⟨j, rfl⟩ := Nat.exists_eq_add_of_le hnk
  unfold level at h ⊢
  rw [below_add, h, below_nil]

/-! ## Counting transitions -/

theorem Step.steps_eq {c d : Configuration} (h : m.Step c d) : d.steps = c.steps + 1 := by
  obtain ⟨t, -, rfl⟩ := h
  rfl

/-- A configuration counts the transitions on the way to it. -/
theorem steps_of_reaches {n : Nat} {c d : Configuration} (h : m.Reaches n c d) :
    d.steps = c.steps + n := by
  induction h with
  | refl => rfl
  | head first _ ih => rw [ih, first.steps_eq, Nat.add_assoc, Nat.add_comm 1]

theorem steps_of_reaches_initial {w : Word} {n : Nat} {c : Configuration}
    (h : m.Reaches n (m.initialConfiguration w) c) : c.steps = n :=
  (steps_of_reaches h).trans (Nat.zero_add n)

theorem Reaches.trans {n k : Nat} {c d e : Configuration} (h : m.Reaches n c d)
    (hk : m.Reaches k d e) : m.Reaches (n + k) c e := by
  induction h with
  | refl => simpa using hk
  | head first _ ih =>
    rw [Nat.add_right_comm]
    exact .head first (ih hk)

/-- What each transition preserves is preserved by a run. -/
theorem Reaches.preserves {P : Configuration → Prop} (hstep : ∀ c d, m.Step c d → P c → P d)
    {n : Nat} {c d : Configuration} (h : m.Reaches n c d) (hc : P c) : P d := by
  induction h with
  | refl => exact hc
  | head first _ ih => exact ih (hstep _ _ first hc)

end

end Machine

end Acceptors
