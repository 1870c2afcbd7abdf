import Acceptors.Samples
import Mathlib.Data.List.Nodup

/-!
# What the samples hold

The texts of the samples are read once and for all. Each of them holds a definition, and a sample
that is looked up by the stem of its file is the one that is meant, as no sample before it goes by
that name.

## Main definitions

* `Sample.anbnGrammar`, `Sample.balancedGrammar`: the grammars of the samples
* `Sample.complementMachine`, `Sample.factorMachine`, `Sample.copyMachine`: their machines
* `Sample.evenDfa`: their deterministic automaton
* `Sample.popcountProgram`, `Sample.factorialProgram`: their programs
* `Sample.contents`: the samples with what their texts hold

## Main results

* `definition_of_mem_contents`: the definition in the text of a sample
* `named?_stem`, `definitionOf_stem`: a sample is found by the stem of its file
-/

namespace Acceptors.Sample

/-! ## Automata -/

/-- Some `a` with as many `b` behind them. `S2` leaves out the empty word. -/
def anbnGrammar : Grammar where
  start := "S"
  productions := [
    ⟨"S", [.nonterminal "A", .nonterminal "T"]⟩,
    ⟨"S", [.nonterminal "A", .nonterminal "B"]⟩,
    ⟨"S", []⟩,
    ⟨"T", [.nonterminal "S2", .nonterminal "B"]⟩,
    ⟨"S2", [.nonterminal "A", .nonterminal "T"]⟩,
    ⟨"S2", [.nonterminal "A", .nonterminal "B"]⟩,
    ⟨"A", [.terminal 'a']⟩,
    ⟨"B", [.terminal 'b']⟩]

/-- Balanced brackets. `S` leaves out the empty word. -/
def balancedGrammar : Grammar where
  start := "S0"
  productions := [
    ⟨"S0", [.nonterminal "S", .nonterminal "S"]⟩,
    ⟨"S0", [.nonterminal "L", .nonterminal "R"]⟩,
    ⟨"S0", [.nonterminal "L", .nonterminal "C"]⟩,
    ⟨"S0", []⟩,
    ⟨"S", [.nonterminal "S", .nonterminal "S"]⟩,
    ⟨"S", [.nonterminal "L", .nonterminal "R"]⟩,
    ⟨"S", [.nonterminal "L", .nonterminal "C"]⟩,
    ⟨"C", [.nonterminal "S", .nonterminal "R"]⟩,
    ⟨"L", [.terminal '(']⟩,
    ⟨"R", [.terminal ')']⟩]

/-- Flips each digit and stops on the first blank. -/
def complementMachine : Machine where
  initial := "flip"
  final := "done"
  blank := '#'
  tapeCount := 1
  table := .ofList [
    ("flip", ⟨['0'], ['1'], [.right], "flip"⟩),
    ("flip", ⟨['1'], ['0'], [.right], "flip"⟩),
    ("flip", ⟨['#'], ['#'], [.stay], "done"⟩)]

/-- Scans the word and guesses where `aba` begins. -/
def factorMachine : Machine where
  initial := "scan"
  final := "found"
  blank := '#'
  tapeCount := 1
  table := .ofList [
    ("scan", ⟨['a'], ['a'], [.right], "scan"⟩),
    ("scan", ⟨['a'], ['a'], [.right], "saw_a"⟩),
    ("scan", ⟨['b'], ['b'], [.right], "scan"⟩),
    ("saw_a", ⟨['b'], ['b'], [.right], "saw_ab"⟩),
    ("saw_ab", ⟨['a'], ['a'], [.right], "found"⟩)]

/-- Copies the word to the second tape and takes the second head back. -/
def copyMachine : Machine where
  initial := "copy"
  final := "done"
  blank := '#'
  tapeCount := 2
  table := .ofList [
    ("copy", ⟨['a', '#'], ['a', 'a'], [.right, .right], "copy"⟩),
    ("copy", ⟨['b', '#'], ['b', 'b'], [.right, .right], "copy"⟩),
    ("copy", ⟨['#', '#'], ['#', '#'], [.stay, .left], "rewind"⟩),
    ("rewind", ⟨['#', 'a'], ['#', 'a'], [.stay, .left], "rewind"⟩),
    ("rewind", ⟨['#', 'b'], ['#', 'b'], [.stay, .left], "rewind"⟩),
    ("rewind", ⟨['#', '#'], ['#', '#'], [.stay, .right], "done"⟩)]

/-- Tells even numbers of `a` from odd ones, with two states for each. -/
def evenDfa : Dfa where
  alphabet := ['a', 'b']
  states := [
    ⟨"e1", true, [1, 2]⟩,
    ⟨"o1", false, [2, 3]⟩,
    ⟨"e2", true, [3, 0]⟩,
    ⟨"o2", false, [0, 1]⟩]
  initial := 0

/-- Takes off the last binary digit of `x` until nothing is left, and adds the digits up in `y`. -/
def popcountProgram : Goto.Program where
  input := "x"
  output := "y"
  start := none
  statements := [
    ⟨"1", .branch (.var "x") .eq (.lit 0) "6"⟩,
    ⟨"2", .compute "b" (.var "x") .mod (.lit 2)⟩,
    ⟨"3", .compute "y" (.var "y") .add (.var "b")⟩,
    ⟨"4", .compute "x" (.var "x") .div (.lit 2)⟩,
    ⟨"5", .jump "1"⟩,
    ⟨"6", .halt⟩]

/-- Multiplies `f` by `n`, by one less and so on, down to two. -/
def factorialProgram : Goto.Program where
  input := "n"
  output := "f"
  start := none
  statements := [
    ⟨"init", .assign "f" (.lit 1)⟩,
    ⟨"test", .branch (.var "n") .le (.lit 1) "done"⟩,
    ⟨"mul", .compute "f" (.var "f") .mul (.var "n")⟩,
    ⟨"dec", .compute "n" (.var "n") .sub (.lit 1)⟩,
    ⟨"loop", .jump "test"⟩,
    ⟨"done", .halt⟩]

/-! ## What the texts hold -/

/-- The definition of `anbnGrammar`. -/
def anbnDefinition : Definition where
  name := "a^n b^n"
  checks := ["", "ab", "aabb", "aaabbb", "aab", "ba"].map String.toList
  automaton := .grammar anbnGrammar

/-- The definition of `balancedGrammar`. -/
def balancedDefinition : Definition where
  name := "Balanced parentheses"
  checks := ["()", "(())", "()()", ")(", "(()", ""].map String.toList
  automaton := .grammar balancedGrammar

/-- The definition of `complementMachine`. -/
def complementDefinition : Definition where
  name := "Binary complement"
  checks := ["1101", "0", "", "10a"].map String.toList
  automaton := .machine complementMachine

/-- The definition of `factorMachine`. -/
def factorDefinition : Definition where
  name := "Contains aba"
  checks := ["aba", "babab", "abba", ""].map String.toList
  automaton := .machine factorMachine

/-- The definition of `copyMachine`. -/
def copyDefinition : Definition where
  name := "Two-tape copy"
  checks := ["abba", "", "b", "abc"].map String.toList
  automaton := .machine copyMachine

/-- The definition of `evenDfa`. -/
def evenDefinition : Definition where
  name := "Even number of a"
  checks := ["", "a", "aa", "bab", "abab", "ba"].map String.toList
  automaton := .dfa evenDfa

/-- The definition of `popcountProgram`. -/
def popcountDefinition : Definition where
  name := "Popcount"
  checks := ["0", "7", "11", "1024"].map String.toList
  automaton := .goto popcountProgram

/-- The definition of `factorialProgram`. -/
def factorialDefinition : Definition where
  name := "Factorial"
  checks := ["0", "1", "5", "10"].map String.toList
  automaton := .goto factorialProgram

/-- The samples in their order, each with what its text holds. -/
def contents : List (Sample × Definition) :=
  [(anbn, anbnDefinition), (balanced, balancedDefinition), (binaryComplement, complementDefinition),
    (containsAba, factorDefinition), (twoTapeCopy, copyDefinition), (evenA, evenDefinition),
    (popcount, popcountDefinition), (factorial, factorialDefinition)]

theorem all_eq_map_contents : all = contents.map Prod.fst := rfl

/-- The text of a sample holds its definition. The texts are evaluated here and nowhere else. -/
theorem toOption_definition_of_mem_contents :
    ∀ p ∈ contents, p.1.definition.toOption = some p.2 := by decide +kernel

theorem definition_of_mem_contents {s : Sample} {d : Definition} (h : (s, d) ∈ contents) :
    s.definition = .ok d := by
  have hsome := toOption_definition_of_mem_contents (s, d) h
  cases hs : s.definition with
  | error e => simp [hs, Except.toOption] at hsome
  | ok d' =>
    rw [hs] at hsome
    exact congrArg Except.ok (Option.some.inj hsome)

/-! ## Samples by name -/

theorem names_eq : names = contents.map fun p => p.2.name := by
  rw [names, all_eq_map_contents, List.map_map]
  refine List.map_congr_left fun p hp => ?_
  simp only [Function.comp_apply, name, definition_of_mem_contents hp]

/-- The stems of the files of two samples differ, and no stem is the name or the file of one. -/
theorem stem_unshared : (all.map fun s => Path.stem s.file).Nodup ∧
    ∀ s ∈ all, Path.stem s.file ∉ names ∧ ∀ t ∈ all, t.file ≠ Path.stem s.file := by
  rw [names_eq]
  decide +kernel

/-- A sample is found by the stem of its file. -/
theorem named?_stem {s : Sample} (hs : s ∈ all) : named? (Path.stem s.file) = some s := by
  obtain ⟨hnodup, hunshared⟩ := stem_unshared
  obtain ⟨hname, hfile⟩ := hunshared s hs
  obtain ⟨t, ht⟩ : ∃ t, named? (Path.stem s.file) = some t :=
    Option.isSome_iff_exists.mp (List.find?_isSome.mpr ⟨s, hs, by simp [isNamed]⟩)
  have hmem : t ∈ all := List.mem_of_find?_eq_some ht
  have hnamed : (t.name = Path.stem s.file ∨ t.file = Path.stem s.file) ∨
      Path.stem t.file = Path.stem s.file := by
    simpa [isNamed] using List.find?_some ht
  rcases hnamed with (htname | htfile) | htstem
  · exact absurd (List.mem_map.mpr ⟨t, hmem, htname⟩) hname
  · exact absurd htfile (hfile t hmem)
  · rw [ht, List.inj_on_of_nodup_map hnodup hmem hs htstem]

/-- The definition that is found by the stem of a file is the one in that file. -/
theorem definitionOf_stem {s : Sample} {d : Definition} (h : (s, d) ∈ contents) :
    definitionOf (Path.stem s.file) = .ok d := by
  have hs : s ∈ all := by
    rw [all_eq_map_contents]
    exact List.mem_map_of_mem h
  unfold definitionOf
  rw [named?_stem hs]
  exact definition_of_mem_contents h

end Acceptors.Sample
