import Acceptors.Proofs.Goto.Budget
import Acceptors.Proofs.Occurrence
import Mathlib.Data.List.Sort
import Mathlib.Data.String.Basic

/-!
# Labels of programs

A program is built exactly if its variables are named, no two statements bear one label and every
jump arrives: the start label counts as a jump. Otherwise the labels at fault are reported all
together, those that are borne more than once in the order in which this shows, and those that no
statement bears in increasing order. Once a program is built, no run of it misses a label.

## Main definitions

* `Program.JumpsTo`: a statement goes to a label
* `Program.HasDefect`: what is reported of a program

## Main results

* `isConsistent_iff`: what the check asks for, statement by statement
* `Program.check_eq_error_iff`: what the check reports
* `labels_resolve`: which programs are built, what is reported otherwise, and that no run misses a
  label
-/

namespace Acceptors.Goto

namespace Program

variable {p : Program} {d : Defect} {statements : List Statement} {label : String}

/-! ## Jumps -/

/-- A statement goes to the label, always or if its comparison holds. -/
def JumpsTo (statements : List Statement) (label : String) : Prop :=
  ∃ s ∈ statements, s.instruction = .jump label ∨
    ∃ left relation right, s.instruction = .branch left relation right label

theorem jumpTarget?_eq_some_iff {i : Instruction} : i.jumpTarget? = some label ↔
    i = .jump label ∨ ∃ left relation right, i = .branch left relation right label := by
  cases i <;> simp [Instruction.jumpTarget?]

/-- The targets of a program are those of its jumps and the start label. -/
theorem mem_targets_iff :
    label ∈ p.targets ↔ JumpsTo p.statements label ∨ p.start = some label := by
  simp only [targets, List.mem_append, List.mem_filterMap, jumpTarget?_eq_some_iff, JumpsTo,
    Option.mem_toList]

/-- What the check asks for. -/
theorem isConsistent_iff : p.IsConsistent ↔
    (p.input ≠ "" ∧ p.output ≠ "") ∧ p.labels.Nodup ∧
      (∀ label, JumpsTo p.statements label → label ∈ p.labels) ∧
      ∀ label, p.start = some label → label ∈ p.labels := by
  constructor
  · intro h
    exact ⟨⟨h.input_ne, h.output_ne⟩, h.nodup_labels,
      fun label hjump => h.target_mem label (mem_targets_iff.mpr (.inl hjump)),
      fun label hstart => h.target_mem label (mem_targets_iff.mpr (.inr hstart))⟩
  · rintro ⟨⟨hinput, houtput⟩, hnodup, hjump, hstart⟩
    exact ⟨hinput, houtput, hnodup, fun label hlabel =>
      (mem_targets_iff.mp hlabel).elim (hjump label) (hstart label)⟩

/-! ## Reports -/

/-- What is reported of a program: variables without a name, or else the labels that several
statements bear, in the order of their second occurrences, or else the labels that the program goes
to and no statement bears, in increasing order. -/
inductive HasDefect (p : Program) : Defect → Prop where
  | unnamed (nameless : p.input = "" ∨ p.output = "") :
    HasDefect p (.structural "Input and output variables must be named")
  | duplicate {l : List String} (named : p.input ≠ "" ∧ p.output ≠ "") (ne_nil : l ≠ [])
    (lists : ListsOccurrences p.labels 1 l) : HasDefect p (.duplicateLabels l)
  | undefined {l : List String} (named : p.input ≠ "" ∧ p.output ≠ "") (nodup : p.labels.Nodup)
    (ne_nil : l ≠ []) (increasing : l.Pairwise (· < ·))
    (mem_iff : ∀ label, label ∈ l ↔
      (JumpsTo p.statements label ∨ p.start = some label) ∧ label ∉ p.labels) :
    HasDefect p (.undefinedLabels l)

theorem pairwise_undefinedTargets : p.undefinedTargets.Pairwise (· < ·) :=
  pairwise_ascending lt_trans lt_trichotomy _

theorem mem_undefinedTargets_iff : label ∈ p.undefinedTargets ↔
    (JumpsTo p.statements label ∨ p.start = some label) ∧ label ∉ p.labels := by
  rw [undefinedTargets, mem_ascending, List.mem_filter, mem_targets_iff]
  simp

/-- There is one list of the undefined targets in increasing order. -/
theorem eq_undefinedTargets {l : List String} (increasing : l.Pairwise (· < ·))
    (mem_iff : ∀ label, label ∈ l ↔
      (JumpsTo p.statements label ∨ p.start = some label) ∧ label ∉ p.labels) :
    l = p.undefinedTargets :=
  increasing.eq_of_mem_iff pairwise_undefinedTargets fun label => by
    rw [mem_iff, mem_undefinedTargets_iff]

/-- The check reports what there is to report. -/
theorem check_eq_error_iff : p.check = .error d ↔ p.HasDefect d := by
  have hnameless : (p.input.isEmpty || p.output.isEmpty) = true ↔ p.input = "" ∨ p.output = "" := by
    simp
  rw [check]
  by_cases hname : (p.input.isEmpty || p.output.isEmpty) = true
  · rw [if_pos hname]
    constructor
    · rintro ⟨⟩
      exact .unnamed (hnameless.mp hname)
    · rintro (- | ⟨named, -, -⟩ | ⟨named, -, -, -, -⟩)
      · rfl
      · exact absurd (hnameless.mp hname) (not_or.mpr named)
      · exact absurd (hnameless.mp hname) (not_or.mpr named)
  have hnamed : p.input ≠ "" ∧ p.output ≠ "" := not_or.mp fun h => hname (hnameless.mpr h)
  rw [if_neg hname]
  -- each report excludes those behind it in the order of the check
  by_cases hrepeated : repeated p.labels = []
  · rw [if_neg (not_not.mpr hrepeated)]
    by_cases hundefined : p.undefinedTargets = []
    · rw [if_neg (not_not.mpr hundefined)]
      constructor
      · rintro ⟨⟩
      · rintro (nameless | ⟨-, ne_nil, lists⟩ | ⟨-, -, ne_nil, increasing, mem_iff⟩)
        · exact absurd (hnameless.mpr nameless) hname
        · exact absurd (lists.eq_repeated.trans hrepeated) ne_nil
        · exact absurd ((eq_undefinedTargets increasing mem_iff).trans hundefined) ne_nil
    · rw [if_pos hundefined]
      constructor
      · rintro ⟨⟩
        exact .undefined hnamed (repeated_eq_nil_iff.mp hrepeated) hundefined
          pairwise_undefinedTargets fun label => mem_undefinedTargets_iff
      · rintro (nameless | ⟨-, ne_nil, lists⟩ | ⟨-, -, -, increasing, mem_iff⟩)
        · exact absurd (hnameless.mpr nameless) hname
        · exact absurd (lists.eq_repeated.trans hrepeated) ne_nil
        · rw [eq_undefinedTargets increasing mem_iff]
  · rw [if_pos hrepeated]
    constructor
    · rintro ⟨⟩
      exact .duplicate hnamed hrepeated (listsOccurrences_repeated p.labels)
    · rintro (nameless | ⟨-, -, lists⟩ | ⟨-, nodup, -, -, -⟩)
      · exact absurd (hnameless.mpr nameless) hname
      · rw [lists.eq_repeated]
      · exact absurd (repeated_eq_nil_iff.mpr nodup) hrepeated

/-! ## Programs -/

/-- A checked program is the one that was checked, or its defect is reported. -/
theorem map_check_eq_ok_iff {q r : Program} :
    (q.check.map fun _ => q) = .ok r ↔ q.IsConsistent ∧ r = q := by
  rw [map_eq_ok_iff]
  constructor
  · rintro ⟨_, hcheck, rfl⟩
    exact ⟨check_eq_ok_iff.mp hcheck, rfl⟩
  · rintro ⟨hcon, rfl⟩
    exact ⟨(), check_eq_ok_iff.mpr hcon, rfl⟩

theorem map_check_eq_error_iff {q : Program} :
    (q.check.map fun _ => q) = .error d ↔ q.HasDefect d := by
  rw [map_eq_error_iff, check_eq_error_iff]

/-- **Programs are built exactly if their labels resolve.** Statements are a program exactly if the
variables are named, no two statements bear one label and each jump goes to a label of a statement;
a start label can be set exactly if this holds and it is one of the labels. Otherwise what is
reported are nameless variables, or else the repeated labels, or else the undefined ones. No run of
a program that was built misses a label. -/
theorem labels_resolve :
    (∀ (input output : String) (statements : List Statement),
      (∀ q, ofStatements input output statements = .ok q ↔
        ((input ≠ "" ∧ output ≠ "") ∧ (statements.map Statement.label).Nodup ∧
          ∀ l, JumpsTo statements l → l ∈ statements.map Statement.label) ∧
        q = ⟨input, output, none, statements⟩) ∧
      ∀ d, ofStatements input output statements = .error d ↔
        HasDefect ⟨input, output, none, statements⟩ d) ∧
    (∀ (p : Program) (label : String),
      (∀ q, p.startingAt label = .ok q ↔
        (((p.input ≠ "" ∧ p.output ≠ "") ∧ p.labels.Nodup ∧
          ∀ l, JumpsTo p.statements l → l ∈ p.labels) ∧ label ∈ p.labels) ∧
        q = { p with start := some label }) ∧
      ∀ d, p.startingAt label = .error d ↔ HasDefect { p with start := some label } d) ∧
    ∀ p : Program, p.Built → ∀ input budget label,
      (p.run input budget).result ≠ .error (.unknownLabel label) := by
  refine ⟨fun input output statements => ⟨fun q => ?_, fun d => map_check_eq_error_iff⟩,
    fun p label => ⟨fun q => ?_, fun d => map_check_eq_error_iff⟩,
    fun p hp => hp.isConsistent.run_ne_unknownLabel⟩
  · rw [ofStatements, map_check_eq_ok_iff, isConsistent_iff]
    constructor
    · rintro ⟨⟨hnamed, hnodup, hjumps, -⟩, rfl⟩
      exact ⟨⟨hnamed, hnodup, hjumps⟩, rfl⟩
    · rintro ⟨⟨hnamed, hnodup, hjumps⟩, rfl⟩
      exact ⟨⟨hnamed, hnodup, hjumps, fun l hl => by cases hl⟩, rfl⟩
  · rw [startingAt, map_check_eq_ok_iff, isConsistent_iff]
    constructor
    · rintro ⟨⟨hnamed, hnodup, hjumps, hstart⟩, rfl⟩
      exact ⟨⟨⟨hnamed, hnodup, hjumps⟩, hstart label rfl⟩, rfl⟩
    · rintro ⟨⟨⟨hnamed, hnodup, hjumps⟩, hlabel⟩, rfl⟩
      refine ⟨⟨hnamed, hnodup, hjumps, fun l hl => ?_⟩, rfl⟩
      obtain rfl := Option.some.inj hl
      exact hlabel

/-- Statements that go round, the last of them to a label that they lack. -/
def strayStatements : List Statement :=
  [⟨"a", .jump "b"⟩, ⟨"b", .branch (.var "x") .lt (.lit 0) "a"⟩, ⟨"c", .jump "z"⟩]

/-- The first two of them are a program, and no run of it from `b` misses a label. All three are
none, as `z` is undefined, nor are they if they are listed twice, as all labels are then repeated. -/
theorem strayStatements_reported :
    (∃ p q, ofStatements "x" "y" (strayStatements.take 2) = .ok p ∧ p.startingAt "b" = .ok q ∧
      ∀ budget label, (q.run (-1) budget).result ≠ .error (.unknownLabel label)) ∧
    HasDefect ⟨"x", "y", none, strayStatements⟩ (.undefinedLabels ["z"]) ∧
    HasDefect ⟨"x", "y", none, strayStatements ++ strayStatements⟩
      (.duplicateLabels ["a", "b", "c"]) := by
  obtain ⟨hstatements, -, hruns⟩ := labels_resolve
  refine ⟨?_, ?_, ?_⟩
  · obtain ⟨p, hp⟩ : ∃ p, ofStatements "x" "y" (strayStatements.take 2) = .ok p := ⟨_, rfl⟩
    obtain ⟨q, hq⟩ : ∃ q, p.startingAt "b" = .ok q := by
      cases hp
      exact ⟨_, rfl⟩
    exact ⟨p, q, hp, hq, hruns q (.startingAt (.ofStatements hp) hq) (-1)⟩
  · exact ((hstatements "x" "y" strayStatements).2 _).mp rfl
  · exact ((hstatements "x" "y" (strayStatements ++ strayStatements)).2 _).mp rfl

end Program

end Acceptors.Goto
