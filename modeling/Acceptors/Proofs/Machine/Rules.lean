import Acceptors.Machine.Basic
import Acceptors.Proofs.Machine.GroupedTable
import Acceptors.Proofs.Occurrence

/-!
# Machines from rules

A machine is built from rules by inserting them into its table one after the other, with its blank
filled in. Its check then goes through the table, not through the rules as they were given: a rule
that does not mention each tape once is reported by the state that it leaves, and the first one in
the order of the table comes before the others.

## Main definitions

* `Transition.MentionsEach`: a transition mentions each tape once
* `Machine.HasDefect`: what is reported of tapes and transitions
* `Machine.filledRules`: rules with the blank filled in

## Main results

* `Machine.check_eq_error_iff`: the check reports what there is to report
* `Machine.ofRules_sorts_rules`: which machines are built, their tables, and what is reported
  otherwise
-/

namespace Acceptors

/-- The transition mentions each of the given number of tapes once. -/
def Transition.MentionsEach (count : Nat) (t : Transition) : Prop :=
  t.read.length = count ∧ t.write.length = count ∧ t.directions.length = count

instance (count : Nat) (t : Transition) : Decidable (t.MentionsEach count) :=
  inferInstanceAs (Decidable (_ ∧ _ ∧ _))

namespace Machine

variable {m : Machine} {d : Defect} {count : Nat} {t : Transition}

theorem fitsTapes_iff : fitsTapes count t = true ↔ t.MentionsEach count := by
  simp [fitsTapes, Transition.MentionsEach, and_assoc]

/-- Filling in the blank keeps the lengths. -/
theorem fitsTapes_fillBlank (blank : Char) :
    fitsTapes count (fillBlank blank t) = fitsTapes count t := by
  rw [fitsTapes, fitsTapes, fillBlank, List.length_map, List.length_map]

/-- What is wrong with a number of tapes and a list of transitions: that there are no tapes, or else
the first transition that does not mention each tape once, by the state that it leaves. -/
inductive HasDefect (count : Nat) (l : List (String × Transition)) : Defect → Prop where
  | noTapes (zero : count = 0) : HasDefect count l (.structural "No tapes defined")
  | misfit {e : String × Transition} (pos : count ≠ 0)
    (first : IsFirstIn l (fun e => ¬ e.2.MentionsEach count) e) :
    HasDefect count l (.structural ("Transition in state '" ++ e.1 ++
      "' has inconsistent tape counts (expected " ++ toString count ++ ")"))

theorem check_eq_error_iff : m.check = .error d ↔ HasDefect m.tapeCount m.table.entries d := by
  have hfirst : ∀ e, m.table.entries.find? (fun e => !fitsTapes m.tapeCount e.2) = some e ↔
      IsFirstIn m.table.entries (fun e => ¬ e.2.MentionsEach m.tapeCount) e :=
    fun e => find?_eq_some_iff_isFirstIn fun e => by
      rw [Bool.not_eq_true', ← fitsTapes_iff, Bool.not_eq_true]
  rw [check]
  by_cases hcount : m.tapeCount = 0
  · rw [if_pos hcount]
    constructor
    · rintro ⟨⟩
      exact .noTapes hcount
    · rintro (- | ⟨hne, -⟩)
      · rfl
      · exact absurd hcount hne
  · rw [if_neg hcount]
    cases hfind : m.table.entries.find? fun e => !fitsTapes m.tapeCount e.2 with
    | none =>
      constructor
      · intro h
        cases h
      · rintro (hzero | ⟨-, hmisfit⟩)
        · exact absurd hzero hcount
        · cases hfind.symm.trans ((hfirst _).mpr hmisfit)
    | some e =>
      constructor
      · rintro ⟨⟩
        exact .misfit hcount ((hfirst e).mp hfind)
      · rintro (hzero | ⟨-, hmisfit⟩)
        · exact absurd hzero hcount
        · cases hfind.symm.trans ((hfirst _).mpr hmisfit)
          rfl

/-- The rules of a machine with its blank filled in, each with the state that it leaves. -/
def filledRules (blank : Char) (rules : List (String × Transition)) :
    List (String × Transition) :=
  rules.map fun e => (e.1, fillBlank blank e.2)

theorem ofRules_eq (initial final : String) (blank : Char) (count : Nat)
    (rules : List (String × Transition)) :
    ofRules initial final blank count rules =
      (Machine.mk initial final blank count (.ofList (filledRules blank rules))).check.map
        fun _ => ⟨initial, final, blank, count, .ofList (filledRules blank rules)⟩ := rfl

/-- **The table of a machine holds its rules without loss.** A table is an ordered multimap of what
was inserted, and a map of groups holds the same. A machine is built from rules exactly if it has a
tape and each rule mentions each tape once, and its table is that of the rules in their order with
the blank filled in: so rules that spell the blank with its sign or as it is are found together. If
no machine is built, having no tapes is reported first, and otherwise the state of the first rule in
the order of the table that does not mention each tape once. -/
theorem ofRules_sorts_rules :
    (∀ inserted, (TransitionTable.ofList inserted).Holds inserted ∧
      (GroupedTable.ofRules inserted).Agrees (TransitionTable.ofList inserted)) ∧
    ∀ (initial final : String) (blank : Char) (count : Nat) (rules : List (String × Transition)),
      (∀ m, ofRules initial final blank count rules = .ok m ↔
        1 ≤ count ∧ (∀ e ∈ rules, e.2.MentionsEach count) ∧
          m = ⟨initial, final, blank, count, .ofList (filledRules blank rules)⟩) ∧
      (∀ m, ofRules initial final blank count rules = .ok m → ∀ state symbols,
        m.table.find state symbols =
          (rules.filter fun e => e.1 = state && (fillBlank blank e.2).read = symbols).map
            fun e => fillBlank blank e.2) ∧
      ∀ d, ofRules initial final blank count rules = .error d ↔
        HasDefect count ((filledRules blank rules).mergeSort fun e f =>
          TransitionTable.key e ≤ TransitionTable.key f) d := by
  refine ⟨fun inserted => ⟨TransitionTable.holds_ofList inserted,
      GroupedTable.agrees_ofRules inserted⟩,
    fun initial final blank count rules => ⟨fun m => ?_, fun m hm state symbols => ?_, fun d => ?_⟩⟩
  · have hfits : (∀ e ∈ (TransitionTable.ofList (filledRules blank rules)).entries,
        fitsTapes count e.2 = true) ↔ ∀ e ∈ rules, e.2.MentionsEach count := by
      simp only [TransitionTable.mem_entries_ofList, filledRules, List.forall_mem_map,
        fitsTapes_fillBlank]
      simp only [fitsTapes_iff]
    rw [ofRules_eq, map_eq_ok_iff]
    constructor
    · rintro ⟨_, hcheck, rfl⟩
      obtain ⟨hcount, hrules⟩ := check_eq_ok_iff.mp hcheck
      exact ⟨Nat.one_le_iff_ne_zero.mpr hcount, hfits.mp hrules, rfl⟩
    · rintro ⟨hcount, hrules, rfl⟩
      exact ⟨(), check_eq_ok_iff.mpr ⟨Nat.one_le_iff_ne_zero.mp hcount, hfits.mpr hrules⟩, rfl⟩
  · obtain ⟨_, -, rfl⟩ := map_eq_ok_iff.mp hm
    show (TransitionTable.ofList (filledRules blank rules)).find state symbols = _
    rw [TransitionTable.find_ofList, filledRules, List.filter_map, List.map_map]
    rfl
  · rw [ofRules_eq, map_eq_error_iff, check_eq_error_iff]
    show HasDefect count (TransitionTable.ofList (filledRules blank rules)).entries d ↔ _
    rw [TransitionTable.entries_ofList]

/-- Rules in two states. Two of them read the blank `#`, one by its sign and one as it is. -/
def blankRules : List (String × Transition) :=
  [("q", ⟨['a'], ['_'], [.right], "q"⟩), ("p", ⟨['_'], ['x'], [.right], "p"⟩),
    ("p", ⟨['#'], ['_'], [.left], "q"⟩), ("p", ⟨['!'], ['!'], [.stay], "q"⟩)]

/-- Both rules for the blank are found with it, in their order, behind the rule for `!`. With two
tapes none of the rules fits, and the state `p` is reported, although a rule of `q` is the first. -/
theorem blankRules_sorted :
    (∃ m, ofRules "p" "q" '#' 1 blankRules = .ok m ∧ m.table.size = 4 ∧
      m.table.find "p" ['#'] =
        [⟨['#'], ['x'], [.right], "p"⟩, ⟨['#'], ['#'], [.left], "q"⟩] ∧
      m.table.entries.map Prod.fst = ["p", "p", "p", "q"]) ∧
    ofRules "p" "q" '#' 2 blankRules = .error (.structural
      "Transition in state 'p' has inconsistent tape counts (expected 2)") := by
  obtain ⟨hholds, hrules⟩ := ofRules_sorts_rules
  constructor
  · obtain ⟨hok, hfind, -⟩ := hrules "p" "q" '#' 1 blankRules
    have hbuilt := (hok ⟨"p", "q", '#', 1, .ofList (filledRules '#' blankRules)⟩).mpr
      ⟨le_rfl, by decide, rfl⟩
    refine ⟨_, hbuilt, (hholds _).1.size_eq, (hfind _ hbuilt "p" ['#']).trans (by decide), ?_⟩
    decide +kernel
  · have hfirst : IsFirstIn (TransitionTable.ofList (filledRules '#' blankRules)).entries
        (fun e => ¬ e.2.MentionsEach 2) ("p", ⟨['!'], ['!'], [.stay], "q"⟩) :=
      ⟨[], (TransitionTable.ofList (filledRules '#' blankRules)).entries.tail,
        by decide +kernel, by decide, by simp⟩
    rw [(hholds _).1.entries_eq] at hfirst
    exact ((hrules "p" "q" '#' 2 blankRules).2.2 _).mpr (.misfit (by decide) hfirst)

end Machine

end Acceptors
