import Acceptors.Distinct
import Mathlib.Data.List.Basic

/-!
# Orders of occurrence

A check that stops at the first offence reports the first element with a property. A check that
collects reports each element once, at the place where it was seen for the first or the second time:
what is kept of a list is then told by the places of these occurrences alone.

## Main definitions

* `IsFirstIn`: the first element of a list with a property
* `OccursAt`: the place of an occurrence behind a number of earlier ones
* `ListsOccurrences`: the elements that occur more than a number of times, in the order in which
  they do so

## Main results

* `find?_eq_some_iff_isFirstIn`: what is found is the first element
* `listsOccurrences_distinct`, `listsOccurrences_repeated`: orders of first and second occurrences
* `ListsOccurrences.unique`: such a list is determined by its occurrences
-/

namespace Acceptors

section

variable {α : Type}

/-- The first element of a list with a property. -/
def IsFirstIn (l : List α) (P : α → Prop) (a : α) : Prop :=
  ∃ before after, l = before ++ a :: after ∧ P a ∧ ∀ b ∈ before, ¬ P b

theorem find?_eq_some_iff_isFirstIn {l : List α} {p : α → Bool} {P : α → Prop} {a : α}
    (hp : ∀ a, p a = true ↔ P a) : l.find? p = some a ↔ IsFirstIn l P a := by
  have hnot : ∀ b, (!p b) = true ↔ ¬ P b := fun b => by
    rw [← hp, Bool.not_eq_true', Bool.not_eq_true]
  simp only [List.find?_eq_some_iff_append, hp, hnot]
  constructor
  · rintro ⟨ha, before, after, hl, hbefore⟩
    exact ⟨before, after, hl, ha, hbefore⟩
  · rintro ⟨before, after, hl, ha, hbefore⟩
    exact ⟨ha, before, after, hl, hbefore⟩

variable [DecidableEq α]

/-- An occurrence of `a` stands at the place `i` behind `k` earlier ones. -/
structure OccursAt (l : List α) (k : Nat) (a : α) (i : Nat) : Prop where
  here : l[i]? = some a
  earlier : (l.take i).count a = k

/-- The elements that occur more than `k` times are listed, each once, in the order of their
occurrences behind `k` earlier ones. -/
structure ListsOccurrences (l : List α) (k : Nat) (m : List α) : Prop where
  nodup : m.Nodup
  mem_iff : ∀ a, a ∈ m ↔ k < l.count a
  ordered : m.Pairwise fun a b => ∀ i j, OccursAt l k a i → OccursAt l k b j → i < j

variable {l : List α} {k i : Nat} {a b : α}

/-! ## Occurrences behind a first element -/

theorem OccursAt.eq_zero (h : OccursAt (a :: l) 0 a i) : i = 0 := by
  cases i with
  | zero => rfl
  | succ i => simpa using h.earlier

theorem OccursAt.of_cons_of_ne (h : OccursAt (b :: l) k a i) (hab : a ≠ b) :
    ∃ j, i = j + 1 ∧ OccursAt l k a j := by
  cases i with
  | zero => exact absurd (Option.some.inj h.here).symm hab
  | succ i =>
    have hcount := h.earlier
    rw [List.take_succ_cons, List.count_cons_of_ne hab.symm] at hcount
    exact ⟨i, rfl, h.here, hcount⟩

theorem OccursAt.of_cons_self (h : OccursAt (a :: l) (k + 1) a i) :
    ∃ j, i = j + 1 ∧ OccursAt l k a j := by
  cases i with
  | zero => simpa using h.earlier
  | succ i =>
    have hcount := h.earlier
    rw [List.take_succ_cons, List.count_cons_self] at hcount
    exact ⟨i, rfl, h.here, Nat.succ.inj hcount⟩

/-! ## First and second occurrences -/

theorem pairwise_distinct_cons {R : α → α → Prop} {c : α} (hc : ∀ b ∈ l, b ≠ c → R c b)
    (hl : (distinct l).Pairwise fun a b => a ≠ c → b ≠ c → R a b) :
    (distinct (c :: l)).Pairwise R := by
  refine List.pairwise_cons.mpr ⟨fun b hb => ?_, List.pairwise_filter.mpr ?_⟩
  · obtain ⟨hmem, hne⟩ := List.mem_filter.mp hb
    exact hc b (mem_distinct.mp hmem) (of_decide_eq_true hne)
  · exact hl.imp fun h ha hb => h (of_decide_eq_true ha) (of_decide_eq_true hb)

/-- What is kept at its first appearance is in the order of first occurrence. -/
theorem listsOccurrences_distinct (l : List α) : ListsOccurrences l 0 (distinct l) where
  nodup := nodup_distinct l
  mem_iff a := by rw [mem_distinct, List.count_pos_iff]
  ordered := by
    induction l with
    | nil => exact List.Pairwise.nil
    | cons c l ih =>
      apply pairwise_distinct_cons
      · intro b _ hbc i j hi hj
        obtain ⟨j, rfl, -⟩ := hj.of_cons_of_ne hbc
        rw [hi.eq_zero]
        exact Nat.succ_pos j
      · refine ih.imp fun {a b} h hac hbc i j hi hj => ?_
        obtain ⟨i', rfl, hi'⟩ := hi.of_cons_of_ne hac
        obtain ⟨j', rfl, hj'⟩ := hj.of_cons_of_ne hbc
        exact Nat.succ_lt_succ (h i' j' hi' hj')

/-- An element recurs at its second occurrence, or at the first one if it was seen before. -/
theorem mem_recurring_iff {seen : List α} :
    a ∈ recurring seen l ↔ (if a ∈ seen then 0 else 1) < l.count a := by
  induction l generalizing seen with
  | nil => simp [recurring]
  | cons c l ih =>
    by_cases hc : c ∈ seen
    · rw [recurring, if_pos hc, List.mem_cons, ih]
      by_cases hac : a = c
      · simp [hac, hc]
      · simp [hac, List.count_cons_of_ne (Ne.symm hac)]
    · rw [recurring, if_neg hc, ih]
      by_cases hac : a = c
      · simp [hac, hc]
      · simp [hac, List.count_cons_of_ne (Ne.symm hac)]

theorem pairwise_distinct_recurring (seen : List α) :
    (distinct (recurring seen l)).Pairwise fun a b => ∀ i j,
      OccursAt l (if a ∈ seen then 0 else 1) a i → OccursAt l (if b ∈ seen then 0 else 1) b j →
        i < j := by
  induction l generalizing seen with
  | nil => exact List.Pairwise.nil
  | cons c l ih =>
    by_cases hc : c ∈ seen
    · rw [recurring, if_pos hc]
      apply pairwise_distinct_cons
      · intro b _ hbc i j hi hj
        obtain ⟨j, rfl, -⟩ := hj.of_cons_of_ne hbc
        rw [if_pos hc] at hi
        rw [hi.eq_zero]
        exact Nat.succ_pos j
      · refine (ih seen).imp fun {a b} h hac hbc i j hi hj => ?_
        obtain ⟨i', rfl, hi'⟩ := hi.of_cons_of_ne hac
        obtain ⟨j', rfl, hj'⟩ := hj.of_cons_of_ne hbc
        exact Nat.succ_lt_succ (h i' j' hi' hj')
    · -- the first element is seen from here on, so its next occurrence counts as the second one
      have hlater : ∀ {a i}, OccursAt (c :: l) (if a ∈ seen then 0 else 1) a i →
          ∃ j, i = j + 1 ∧ OccursAt l (if a ∈ c :: seen then 0 else 1) a j := by
        intro a i hi
        by_cases hac : a = c
        · subst hac
          rw [if_neg hc] at hi
          rw [if_pos List.mem_cons_self]
          exact hi.of_cons_self
        · simpa [hac] using hi.of_cons_of_ne hac
      rw [recurring, if_neg hc]
      refine (ih (c :: seen)).imp fun {a b} h i j hi hj => ?_
      obtain ⟨i', rfl, hi'⟩ := hlater hi
      obtain ⟨j', rfl, hj'⟩ := hlater hj
      exact Nat.succ_lt_succ (h i' j' hi' hj')

/-- What is reported as repeated is in the order of second occurrence. -/
theorem listsOccurrences_repeated (l : List α) : ListsOccurrences l 1 (repeated l) where
  nodup := nodup_distinct _
  mem_iff a := by rw [repeated, mem_distinct, mem_recurring_iff, if_neg List.not_mem_nil]
  ordered := by simpa [repeated] using pairwise_distinct_recurring (l := l) []

/-! ## What the occurrences determine -/

theorem exists_occursAt (h : k < l.count a) : ∃ i, OccursAt l k a i := by
  induction l generalizing k with
  | nil => simp at h
  | cons b l ih =>
    by_cases hab : a = b
    · subst hab
      cases k with
      | zero => exact ⟨0, rfl, rfl⟩
      | succ k =>
        rw [List.count_cons_self] at h
        obtain ⟨i, hi⟩ := ih (Nat.lt_of_succ_lt_succ h)
        exact ⟨i + 1, hi.here, by rw [List.take_succ_cons, List.count_cons_self, hi.earlier]⟩
    · rw [List.count_cons_of_ne (Ne.symm hab)] at h
      obtain ⟨i, hi⟩ := ih h
      exact ⟨i + 1, hi.here, by
        rw [List.take_succ_cons, List.count_cons_of_ne (Ne.symm hab), hi.earlier]⟩

/-- There is one list of the occurrences behind a number of earlier ones. -/
theorem ListsOccurrences.unique {m n : List α} (hm : ListsOccurrences l k m)
    (hn : ListsOccurrences l k n) : m = n := by
  have hperm : m.Perm n :=
    (List.perm_ext_iff_of_nodup hm.nodup hn.nodup).mpr fun a => by rw [hm.mem_iff, hn.mem_iff]
  refine hperm.eq_of_pairwise (fun a b ha hb hab hba => ?_) hm.ordered hn.ordered
  obtain ⟨i, hi⟩ := exists_occursAt ((hm.mem_iff a).mp ha)
  obtain ⟨j, hj⟩ := exists_occursAt ((hn.mem_iff b).mp hb)
  exact absurd (hab i j hi hj) (Nat.lt_asymm (hba j i hj hi))

theorem ListsOccurrences.eq_repeated {m : List α} (h : ListsOccurrences l 1 m) : m = repeated l :=
  h.unique (listsOccurrences_repeated l)

end

example : repeated ["a", "b", "b", "c", "a", "b"] = ["b", "a"] := by decide

end Acceptors
