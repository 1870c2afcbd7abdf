/-!
# Gathering results

## Main definitions

* `gather`: the values of a list of results, or the first error

## Main results

* `bind_eq_ok_iff`, `map_eq_ok_iff`, `mapError_eq_ok_iff`: results that are no error
* `map_eq_error_iff`, `mapError_eq_error_iff`: results that are one
* `gather_eq_ok_iff`: the values are gathered exactly if there is no error
-/

namespace Acceptors

section

variable {ε ε' α β : Type}

/-! ## Steps that succeed -/

theorem ok_bind {a : α} {f : α → Except ε β} : Except.ok a >>= f = f a := rfl

theorem bind_eq_ok_iff {x : Except ε α} {f : α → Except ε β} {b : β} :
    x >>= f = .ok b ↔ ∃ a, x = .ok a ∧ f a = .ok b := by
  cases x <;> simp [bind, Except.bind]

theorem map_eq_ok_iff {x : Except ε α} {f : α → β} {b : β} :
    x.map f = .ok b ↔ ∃ a, x = .ok a ∧ f a = b := by
  cases x <;> simp [Except.map]

theorem map_eq_error_iff {x : Except ε α} {f : α → β} {e : ε} :
    x.map f = .error e ↔ x = .error e := by
  cases x <;> simp [Except.map]

theorem mapError_eq_ok_iff {x : Except ε α} {f : ε → ε'} {a : α} :
    x.mapError f = .ok a ↔ x = .ok a := by
  constructor
  · intro h
    cases x with
    | error e => cases h
    | ok b => exact congrArg Except.ok (Except.ok.inj h)
  · rintro rfl
    rfl

theorem mapError_eq_error_iff {x : Except ε α} {f : ε → ε'} {e' : ε'} :
    x.mapError f = .error e' ↔ ∃ e, x = .error e ∧ f e = e' := by
  constructor
  · intro h
    cases x with
    | error e => exact ⟨e, rfl, Except.error.inj h⟩
    | ok a => cases h
  · rintro ⟨e, rfl, rfl⟩
    rfl

/-! ## Lists of results -/

/-- The values of a list of results, or the first error. -/
def gather : List (Except ε α) → Except ε (List α)
  | [] => .ok []
  | .error e :: _ => .error e
  | .ok a :: l => (gather l).map (a :: ·)

@[simp] theorem gather_map_ok (l : List α) : gather (l.map (Except.ok (ε := ε))) = .ok l := by
  induction l with
  | nil => rfl
  | cons a l ih => rw [List.map_cons, gather, ih]; rfl

/-- The values are gathered exactly if there is no error. -/
theorem gather_eq_ok_iff {l : List (Except ε α)} {as : List α} :
    gather l = .ok as ↔ l = as.map .ok := by
  constructor
  · intro h
    induction l generalizing as with
    | nil =>
      obtain rfl : [] = as := Except.ok.inj h
      rfl
    | cons x l ih =>
      cases x with
      | error e => cases h
      | ok a =>
        obtain ⟨bs, hl, rfl⟩ := map_eq_ok_iff.mp h
        rw [ih hl, List.map_cons]
  · rintro rfl
    exact gather_map_ok as

end

end Acceptors
