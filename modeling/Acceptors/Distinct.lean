/-!
# Lists without repetition

A list of names read off a description keeps each name once, at the place where it first appears.

## Main definitions

* `distinct`: the elements of a list in order of first appearance
* `repeated`: the elements that occur at least twice, in order of second appearance

## Main results

* `mem_distinct`, `nodup_distinct`: the same elements, each once
-/

namespace Acceptors

section

variable {α : Type} [DecidableEq α]

/-- The elements of a list, each once, in order of first appearance. -/
def distinct : List α → List α
  | [] => []
  | a :: l => a :: (distinct l).filter (fun b => b ≠ a)

@[simp] theorem mem_distinct {a : α} {l : List α} : a ∈ distinct l ↔ a ∈ l := by
  induction l with
  | nil => simp [distinct]
  | cons b l ih => by_cases h : a = b <;> simp [distinct, h, ih]

theorem nodup_distinct (l : List α) : (distinct l).Nodup := by
  induction l with
  | nil => simp [distinct]
  | cons b l ih => exact List.nodup_cons.mpr ⟨by simp, List.Pairwise.filter _ ih⟩

/-- The occurrences in `l` of what `seen` or an earlier place of `l` holds already. -/
def recurring (seen : List α) : List α → List α
  | [] => []
  | a :: l => if a ∈ seen then a :: recurring seen l else recurring (a :: seen) l

/-- The elements that occur at least twice, each once, in order of second appearance. -/
def repeated (l : List α) : List α := distinct (recurring [] l)

theorem recurring_eq_nil_iff {l : List α} :
    ∀ {seen : List α}, recurring seen l = [] ↔ l.Nodup ∧ ∀ a ∈ l, a ∉ seen := by
  induction l with
  | nil => simp [recurring]
  | cons a l ih =>
    intro seen
    by_cases h : a ∈ seen
    · simp [recurring, h]
    · simp only [recurring, h, if_false, ih, List.nodup_cons, List.mem_cons, forall_eq_or_imp,
        not_or, not_false_eq_true, true_and]
      constructor
      · exact fun ⟨hl, hs⟩ => ⟨⟨fun ha => (hs a ha).1 rfl, hl⟩, fun b hb => (hs b hb).2⟩
      · exact fun ⟨⟨ha, hl⟩, hs⟩ => ⟨hl, fun b hb => ⟨fun hba => ha (hba ▸ hb), hs b hb⟩⟩

theorem repeated_eq_nil_iff {l : List α} : repeated l = [] ↔ l.Nodup := by
  have h : ∀ m : List α, distinct m = [] ↔ m = [] := fun m => by cases m <;> simp [distinct]
  simp [repeated, h, recurring_eq_nil_iff]

end

end Acceptors
