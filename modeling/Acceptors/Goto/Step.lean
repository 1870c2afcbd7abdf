import Acceptors.Goto.Check
import Acceptors.Goto.Run

/-!
# Steps of programs

The meaning of a program, one statement at a time and without a budget. A state is the place of the
next statement with the variables. A program stops when no statement stands at the place or when it
halts there.

## Main definitions

* `Goto.Program.State`, `Goto.Program.Step`: states and single steps
* `Goto.Program.Stops`, `Goto.Program.Fails`, `Goto.Program.Reaches`: what a number of executed
  statements leads to

## Main results

* `addressIn_eq_some_iff`: a label that is borne once is found where it stands
* `step_iff_advance`: a step executes the statement at its place, if the labels differ
* `advance_eq_none_iff`, `advance_eq_arithmetic_iff`: which statements stop a program or fail
-/

namespace Acceptors.Goto

/-! ## Addresses -/

theorem addressIn_eq_none_iff {label : String} {l : List Statement} :
    addressIn label l = none ↔ ∀ s ∈ l, s.label ≠ label := by
  induction l with
  | nil => simp [addressIn]
  | cons s l ih =>
    unfold addressIn
    cases h : addressIn label l with
    | some n =>
      have : ¬ ∀ s ∈ l, s.label ≠ label := fun hl => by simp [ih.mpr hl] at h
      simp only [reduceCtorEq, List.forall_mem_cons, false_iff]
      exact fun hl => this hl.2
    | none =>
      by_cases hs : s.label = label
      · simp [hs]
      · simpa [hs] using ih.mp h

theorem label_of_addressIn {label : String} {l : List Statement} {n : Nat}
    (h : addressIn label l = some n) : (l[n]?).map Statement.label = some label := by
  induction l generalizing n with
  | nil => simp [addressIn] at h
  | cons s l ih =>
    unfold addressIn at h
    cases hl : addressIn label l with
    | some k =>
      obtain rfl : k + 1 = n := by simpa [hl] using h
      simpa using ih hl
    | none =>
      by_cases hs : s.label = label
      · obtain rfl : 0 = n := by simpa [hl, hs] using h
        simp [hs]
      · simp [hl, hs] at h

/-- A label that is borne once is found where it stands. -/
theorem addressIn_eq_some_iff {label : String} {l : List Statement} {n : Nat}
    (hl : (l.map Statement.label).Nodup) :
    addressIn label l = some n ↔ (l[n]?).map Statement.label = some label := by
  refine ⟨label_of_addressIn, fun h => ?_⟩
  cases hk : addressIn label l with
  | none =>
    obtain ⟨s, hs, hlabel⟩ := Option.map_eq_some_iff.mp h
    exact absurd hlabel (addressIn_eq_none_iff.mp hk s (List.mem_of_getElem? hs))
  | some k =>
    have hn : (l.map Statement.label)[n]? = some label := by simpa using h
    have hk' : (l.map Statement.label)[k]? = some label := by simpa using label_of_addressIn hk
    -- the label stands at both places, and it stands only once
    obtain ⟨hnlt, hneq⟩ := List.getElem?_eq_some_iff.mp hn
    exact congrArg some <| ((List.getElem?_inj hnlt hl).mp (hn.trans hk'.symm)).symm

namespace Program

/-! ## Steps -/

/-- The place of the next statement, and the variables. -/
structure State where
  place : Nat
  vars : Variables
  deriving DecidableEq, Repr

section

variable (p : Program)

/-- The statement with the label stands at the place. -/
def Bears (place : Nat) (label : String) : Prop :=
  (p.statements[place]?).map Statement.label = some label

/-- The instruction stands at the place. -/
def Holds (place : Nat) (i : Instruction) : Prop :=
  (p.statements[place]?).map Statement.instruction = some i

/-- A statement is executed and the program goes on. -/
inductive Step : State → State → Prop where
  | assign {n : Nat} {vars : Variables} {x : String} {a : Operand}
    (here : p.Holds n (.assign x a)) :
    Step ⟨n, vars⟩ ⟨n + 1, vars.set x (a.value vars)⟩
  | compute {n : Nat} {vars : Variables} {x : String} {a b : Operand} {op : Operator} {v : Int}
    (here : p.Holds n (.compute x a op b))
    (result : op.apply (a.value vars) (b.value vars) = .ok v) :
    Step ⟨n, vars⟩ ⟨n + 1, vars.set x v⟩
  | jump {n k : Nat} {vars : Variables} {label : String}
    (here : p.Holds n (.jump label)) (there : p.Bears k label) : Step ⟨n, vars⟩ ⟨k, vars⟩
  | taken {n k : Nat} {vars : Variables} {a b : Operand} {rel : Relation} {label : String}
    (here : p.Holds n (.branch a rel b label)) (there : p.Bears k label)
    (holds : rel.holds (a.value vars) (b.value vars) = true) : Step ⟨n, vars⟩ ⟨k, vars⟩
  | passed {n : Nat} {vars : Variables} {a b : Operand} {rel : Relation} {label : String}
    (here : p.Holds n (.branch a rel b label))
    (fails : rel.holds (a.value vars) (b.value vars) = false) : Step ⟨n, vars⟩ ⟨n + 1, vars⟩

/-- As many statements as the number says are executed between two states. -/
inductive Reaches : Nat → State → State → Prop where
  | refl (s : State) : Reaches 0 s s
  | head {n : Nat} {s t u : State} (first : p.Step s t) (rest : Reaches n t u) :
    Reaches (n + 1) s u

/-- The program stops, with the given variables, after as many executed statements as the number
says. -/
inductive Stops : State → Nat → Variables → Prop where
  | past {n : Nat} {vars : Variables} (here : p.statements[n]? = none) : Stops ⟨n, vars⟩ 0 vars
  | halt {n : Nat} {vars : Variables} (here : p.Holds n .halt) : Stops ⟨n, vars⟩ 1 vars
  | step {s t : State} {k : Nat} {vars : Variables} (first : p.Step s t) (rest : Stops t k vars) :
    Stops s (k + 1) vars

/-- The last of as many executed statements as the number says fails. -/
inductive Fails : State → Nat → ArithmeticError → Prop where
  | here {n : Nat} {vars : Variables} {x : String} {a b : Operand} {op : Operator}
    {e : ArithmeticError} (here : p.Holds n (.compute x a op b))
    (result : op.apply (a.value vars) (b.value vars) = .error e) : Fails ⟨n, vars⟩ 1 e
  | step {s t : State} {k : Nat} {e : ArithmeticError} (first : p.Step s t) (rest : Fails t k e) :
    Fails s (k + 1) e

end

/-! ## Steps and single statements -/

section

variable {p : Program}

theorem address_eq_ok_iff (hl : p.labels.Nodup) {label : String} {n : Nat} :
    p.address label = .ok n ↔ p.Bears n label := by
  unfold address Bears
  rw [← addressIn_eq_some_iff hl]
  cases addressIn label p.statements <;> simp

/-- A step executes the statement at its place, in a program whose labels differ. -/
theorem step_iff_advance (hl : p.labels.Nodup) {s t : State} :
    p.Step s t ↔
      ∃ st, p.statements[s.place]? = some st ∧
        p.advance s.place st s.vars = .ok (some (t.place, t.vars)) := by
  constructor
  · intro h
    -- the rule that was used tells the instruction, and the instruction tells what is done
    cases h with
    | assign here =>
      obtain ⟨st, hst, hi⟩ := Option.map_eq_some_iff.mp here
      exact ⟨st, hst, by simp [advance, hi, Instruction.execute]⟩
    | compute here result =>
      obtain ⟨st, hst, hi⟩ := Option.map_eq_some_iff.mp here
      exact ⟨st, hst, by simp [advance, hi, Instruction.execute, result, Except.map]⟩
    | jump here there =>
      obtain ⟨st, hst, hi⟩ := Option.map_eq_some_iff.mp here
      exact ⟨st, hst, by
        simp [advance, hi, Instruction.execute, (address_eq_ok_iff hl).mpr there, Except.map]⟩
    | taken here there holds =>
      obtain ⟨st, hst, hi⟩ := Option.map_eq_some_iff.mp here
      exact ⟨st, hst, by
        simp [advance, hi, Instruction.execute, holds, (address_eq_ok_iff hl).mpr there,
          Except.map]⟩
    | passed here fails =>
      obtain ⟨st, hst, hi⟩ := Option.map_eq_some_iff.mp here
      exact ⟨st, hst, by simp [advance, hi, Instruction.execute, fails]⟩
  · obtain ⟨n, vars⟩ := s
    obtain ⟨k, vars'⟩ := t
    rintro ⟨st, hst, h⟩
    -- what is done tells the rule, one for each instruction and outcome
    have here : p.Holds n st.instruction := by simp [Holds, hst]
    unfold advance at h
    cases hi : st.instruction with
    | assign x a =>
      obtain ⟨rfl, rfl⟩ : n + 1 = k ∧ vars.set x (a.value vars) = vars' := by
        simpa [hi, Instruction.execute] using h
      exact .assign (hi ▸ here)
    | compute x a op b =>
      cases hv : op.apply (a.value vars) (b.value vars) with
      | error e => simp [hi, Instruction.execute, hv, Except.map] at h
      | ok v =>
        obtain ⟨rfl, rfl⟩ : n + 1 = k ∧ vars.set x v = vars' := by
          simpa [hi, Instruction.execute, hv, Except.map] using h
        exact .compute (hi ▸ here) hv
    | jump label =>
      cases ha : p.address label with
      | error e => simp [hi, Instruction.execute, ha, Except.map] at h
      | ok k' =>
        obtain ⟨rfl, rfl⟩ : k' = k ∧ vars = vars' := by
          simpa [hi, Instruction.execute, ha, Except.map] using h
        exact .jump (hi ▸ here) ((address_eq_ok_iff hl).mp ha)
    | branch a rel b label =>
      cases hr : rel.holds (a.value vars) (b.value vars) with
      | false =>
        obtain ⟨rfl, rfl⟩ : n + 1 = k ∧ vars = vars' := by
          simpa [hi, Instruction.execute, hr] using h
        exact .passed (hi ▸ here) hr
      | true =>
        cases ha : p.address label with
        | error e => simp [hi, Instruction.execute, hr, ha, Except.map] at h
        | ok k' =>
          obtain ⟨rfl, rfl⟩ : k' = k ∧ vars = vars' := by
            simpa [hi, Instruction.execute, hr, ha, Except.map] using h
          exact .taken (hi ▸ here) ((address_eq_ok_iff hl).mp ha) hr
    | halt => simp [hi, Instruction.execute] at h

theorem advance_eq_none_iff {n : Nat} {st : Statement} {vars : Variables} :
    p.advance n st vars = .ok none ↔ st.instruction = .halt := by
  unfold advance
  cases hi : st.instruction with
  | assign x a => simp [Instruction.execute]
  | compute x a op b =>
    cases hv : op.apply (a.value vars) (b.value vars) <;>
      simp [Instruction.execute, hv, Except.map]
  | jump label => cases h : p.address label <;> simp [Instruction.execute, h, Except.map]
  | branch a rel b label =>
    cases hr : rel.holds (a.value vars) (b.value vars) <;> cases h : p.address label <;>
      simp [Instruction.execute, hr, h, Except.map]
  | halt => simp [Instruction.execute]

theorem address_ne_arithmetic {label : String} {e : ArithmeticError} :
    p.address label ≠ .error (.arithmetic e) := by
  unfold address
  cases addressIn label p.statements <;> simp

theorem advance_eq_arithmetic_iff {n : Nat} {st : Statement} {vars : Variables}
    {e : ArithmeticError} :
    p.advance n st vars = .error (.arithmetic e) ↔
      ∃ x a op b, st.instruction = .compute x a op b ∧
        op.apply (a.value vars) (b.value vars) = .error e := by
  have hmap : ∀ label, (p.address label).map (fun k => some (k, vars)) ≠ .error (.arithmetic e) :=
    fun label h => by
      cases ha : p.address label with
      | ok k => simp [ha, Except.map] at h
      | error f =>
        obtain rfl : f = .arithmetic e := by simpa [ha, Except.map] using h
        exact address_ne_arithmetic ha
  unfold advance
  cases hi : st.instruction with
  | assign x a => simp [Instruction.execute]
  | compute x a op b =>
    cases hv : op.apply (a.value vars) (b.value vars) with
    | ok v =>
      simp only [Instruction.execute, hv, Except.map, reduceCtorEq, Instruction.compute.injEq,
        false_iff]
      rintro ⟨_, _, _, _, ⟨rfl, rfl, rfl, rfl⟩, h⟩
      simp [hv] at h
    | error f =>
      simp only [Instruction.execute, hv, Except.map, Except.error.injEq,
        Failure.arithmetic.injEq, Instruction.compute.injEq]
      constructor
      · rintro rfl
        exact ⟨x, a, op, b, ⟨rfl, rfl, rfl, rfl⟩, hv⟩
      · rintro ⟨_, _, _, _, ⟨rfl, rfl, rfl, rfl⟩, h⟩
        exact Except.error.inj (hv.symm.trans h)
  | jump label => simpa [Instruction.execute] using hmap label
  | branch a rel b label =>
    cases hr : rel.holds (a.value vars) (b.value vars) with
    | false => simp [Instruction.execute, hr]
    | true => simpa [Instruction.execute, hr] using hmap label
  | halt => simp [Instruction.execute]

end

end Program

end Acceptors.Goto
