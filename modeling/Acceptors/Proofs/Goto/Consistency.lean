import Acceptors.Gather
import Acceptors.Goto.Step

/-!
# Consistent programs

A program that is built from statements, with or without a start label, has passed its check: no two
statements bear one label, and every label that it goes to is borne by a statement. So a jump always
arrives somewhere, and a run has a place to start at.

## Main definitions

* `Program.Built`: the programs that are built from statements
* `Program.IsConsistent`: what the check of a program leaves

## Main results

* `check_eq_ok_iff`: the check passes exactly for consistent programs
* `IsConsistent.arithmetic_of_advance_eq_error`: a statement fails only by its operator
* `IsConsistent.starts_iff`, `IsConsistent.exists_starts`: where a run starts
-/

namespace Acceptors.Goto

namespace Program

/-- The program is built from statements, and may have been given a start label. -/
inductive Built : Program → Prop where
  | ofStatements {input output : String} {statements : List Statement} {p : Program}
    (h : ofStatements input output statements = .ok p) : Built p
  | startingAt {p q : Program} {label : String} (built : Built p)
    (h : p.startingAt label = .ok q) : Built q

/-- The variables are named, no two statements bear one label, and every label that the program may
go to is borne by a statement. -/
structure IsConsistent (p : Program) : Prop where
  input_ne : p.input ≠ ""
  output_ne : p.output ≠ ""
  nodup_labels : p.labels.Nodup
  target_mem : ∀ label ∈ p.targets, label ∈ p.labels

section

variable {p : Program}

/-! ## What the check leaves -/

theorem undefinedTargets_eq_nil_iff :
    p.undefinedTargets = [] ↔ ∀ label ∈ p.targets, label ∈ p.labels := by
  rw [undefinedTargets, List.eq_nil_iff_forall_not_mem]
  simp only [mem_ascending, List.mem_filter, Bool.not_eq_true', not_and, Bool.not_eq_false,
    List.contains_iff_mem]

/-- The check passes exactly for the consistent programs. -/
theorem check_eq_ok_iff {u : Unit} : p.check = .ok u ↔ p.IsConsistent := by
  have hcheck : p.check = .ok u ↔
      (p.input ≠ "" ∧ p.output ≠ "") ∧ repeated p.labels = [] ∧ p.undefinedTargets = [] := by
    have hname : ∀ name : String, name ≠ "" ↔ name.isEmpty = false := by simp
    rw [hname, hname, check]
    cases p.input.isEmpty <;> cases p.output.isEmpty <;>
      by_cases hl : repeated p.labels = [] <;> by_cases ht : p.undefinedTargets = [] <;>
        simp [hl, ht]
  rw [hcheck, repeated_eq_nil_iff, undefinedTargets_eq_nil_iff]
  constructor
  · rintro ⟨⟨hinput, houtput⟩, hlabels, htargets⟩
    exact ⟨hinput, houtput, hlabels, htargets⟩
  · rintro ⟨hinput, houtput, hlabels, htargets⟩
    exact ⟨⟨hinput, houtput⟩, hlabels, htargets⟩

theorem isConsistent_of_ofStatements {input output : String} {statements : List Statement}
    (h : ofStatements input output statements = .ok p) : p.IsConsistent := by
  obtain ⟨_, hcheck, rfl⟩ := map_eq_ok_iff.mp h
  exact check_eq_ok_iff.mp hcheck

theorem isConsistent_of_startingAt {q : Program} {label : String}
    (h : p.startingAt label = .ok q) : q.IsConsistent := by
  obtain ⟨_, hcheck, rfl⟩ := map_eq_ok_iff.mp h
  exact check_eq_ok_iff.mp hcheck

theorem Built.isConsistent (h : p.Built) : p.IsConsistent := by
  cases h with
  | ofStatements h => exact isConsistent_of_ofStatements h
  | startingAt _ h => exact isConsistent_of_startingAt h

/-! ## Jumps arrive -/

theorem IsConsistent.exists_address (h : p.IsConsistent) {label : String}
    (hlabel : label ∈ p.targets) : ∃ n, p.address label = .ok n := by
  obtain ⟨n, hn⟩ := List.mem_iff_getElem?.mp (h.target_mem label hlabel)
  exact ⟨n, (address_eq_ok_iff h.nodup_labels).mpr (by simpa [labels, Bears] using hn)⟩

theorem jumpTarget_mem_targets {st : Statement} (hst : st ∈ p.statements) {label : String}
    (h : st.instruction.jumpTarget? = some label) : label ∈ p.targets :=
  List.mem_append_left _ (List.mem_filterMap.mpr ⟨st, hst, h⟩)

/-- A statement of a consistent program fails only by its operator, as its label is there. -/
theorem IsConsistent.arithmetic_of_advance_eq_error (h : p.IsConsistent) {n : Nat} {st : Statement}
    (hst : st ∈ p.statements) {vars : Variables} {f : Failure}
    (hadv : p.advance n st vars = .error f) : ∃ e, f = .arithmetic e := by
  have harrives : ∀ l, st.instruction.jumpTarget? = some l → ∃ k, p.address l = .ok k :=
    fun l hl => h.exists_address (jumpTarget_mem_targets hst hl)
  unfold advance at hadv
  cases hi : st.instruction with
  | assign x a => simp [hi, Instruction.execute] at hadv
  | compute x a op b =>
    cases hv : op.apply (a.value vars) (b.value vars) with
    | ok v => simp [hi, Instruction.execute, hv, Except.map] at hadv
    | error e => exact ⟨e, by simpa [hi, Instruction.execute, hv, Except.map] using hadv.symm⟩
  | jump l =>
    obtain ⟨k, hk⟩ := harrives l (by rw [hi]; rfl)
    simp [hi, Instruction.execute, hk, Except.map] at hadv
  | branch a rel b l =>
    obtain ⟨k, hk⟩ := harrives l (by rw [hi]; rfl)
    cases hr : rel.holds (a.value vars) (b.value vars) <;>
      simp [hi, Instruction.execute, hr, hk, Except.map] at hadv
  | halt => simp [hi, Instruction.execute] at hadv

/-! ## Where a run starts -/

/-- The states in which a run on the input starts: at the start label, or else at the first
statement, with nothing but the input variable set. -/
inductive Starts (p : Program) (input : Int) : State → Prop where
  | first (h : p.start = none) : Starts p input ⟨0, [(p.input, input)]⟩
  | label {l : String} {n : Nat} (h : p.start = some l) (there : p.Bears n l) :
    Starts p input ⟨n, [(p.input, input)]⟩

theorem IsConsistent.starts_iff (h : p.IsConsistent) {input : Int} {s : State} :
    p.Starts input s ↔ p.entry = .ok s.place ∧ s.vars = [(p.input, input)] := by
  constructor
  · rintro (hstart | ⟨hstart, there⟩)
    · exact ⟨by simp [entry, hstart], rfl⟩
    · exact ⟨by simpa [entry, hstart] using (address_eq_ok_iff h.nodup_labels).mpr there, rfl⟩
  · obtain ⟨n, vars⟩ := s
    rintro ⟨hentry, rfl⟩
    cases hstart : p.start with
    | none =>
      obtain rfl : 0 = n := by simpa [entry, hstart] using hentry
      exact .first hstart
    | some l =>
      have hn : p.address l = .ok n := by simpa [entry, hstart] using hentry
      exact .label hstart ((address_eq_ok_iff h.nodup_labels).mp hn)

theorem IsConsistent.exists_starts (h : p.IsConsistent) (input : Int) :
    ∃ s, p.Starts input s := by
  cases hstart : p.start with
  | none => exact ⟨_, .first hstart⟩
  | some l =>
    have hl : l ∈ p.targets := List.mem_append_right _ (by simp [hstart])
    obtain ⟨n, hn⟩ := h.exists_address hl
    exact ⟨_, .label hstart ((address_eq_ok_iff h.nodup_labels).mp hn)⟩

end

end Program

end Acceptors.Goto
