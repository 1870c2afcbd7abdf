import Acceptors.Proofs.Grammar.Meaning
import Acceptors.Proofs.Grammar.Membership
import Acceptors.Proofs.Samples.Contents
import Acceptors.Simulation.Basic
import Mathlib.Combinatorics.Enumerative.DyckWord

/-!
# The languages of the sample grammars

Both grammars are bounded from above by a closed meaning of their nonterminals. From below the words
are derived: some `a` with as many `b` behind them from the inside out, and balanced brackets by
their first return, that is as a pair of brackets around a balanced word and another balanced word
behind it. The first return is that of the Dyck word with the same steps.

## Main definitions

* `Sample.powers`: some `a` and some `b` behind them
* `Sample.IsBalanced`: the words of balanced brackets
* `Sample.spelled`: the brackets of a Dyck word

## Main results

* `IsNormal.exists_verdict_iff`: a grammar in normal form accepts what it generates
* `isBalanced_iff_exists_spelled`: the balanced words are those of Dyck words
* `generates_anbn_iff`, `generates_balanced_iff`: the languages of the two grammars
* `grammars_accept_their_words`: what the two samples accept
-/

namespace Acceptors

namespace Grammar.IsNormal

section

variable {g : Grammar}

/-- A grammar in normal form explains the words that it generates. -/
theorem isSome_parse_iff (h : g.IsNormal) (w : Word) :
    (g.ruleIndex.parse w).isSome ↔ g.Generates w := by
  by_cases hw : w = []
  · rw [hw, isSome_parse_nil, h.generates_nil_iff]
  · exact h.isSome_parse_iff_of_ne_nil hw

/-- A grammar in normal form gives a verdict on every word, and accepts what it generates. -/
theorem exists_verdict_iff (h : g.IsNormal) (w : Word) :
    ∃ v, (g.simulate w).result = .ok v ∧ (v.accepted = true ↔ g.Generates w) := by
  rw [simulate, indexed_eq_ok_iff.mpr ⟨h, rfl⟩, ← h.isSome_parse_iff]
  refine ⟨_, rfl, ?_⟩
  cases g.ruleIndex.parse w <;> simp

end

end Grammar.IsNormal

namespace Sample

open Grammar

variable {w : Word}

/-! ## Some `a` with as many `b` behind them -/

/-- As many `a` as the first number says, and as many `b` as the second one behind them. -/
def powers (k n : Nat) : Word := List.replicate k 'a' ++ List.replicate n 'b'

theorem append_powers (k n : Nat) : ['a'] ++ powers k n = powers (k + 1) n := rfl

theorem powers_append (k n : Nat) : powers k n ++ ['b'] = powers k (n + 1) := by
  rw [powers, List.append_assoc, ← List.replicate_succ']
  rfl

/-- What the nonterminals of the grammar stand for. -/
def anbnMeaning : String → Word → Prop
  | "S", w => ∃ n, w = powers n n
  | "S2", w => ∃ n, w = powers (n + 1) (n + 1)
  | "T", w => ∃ n, w = powers (n + 1) (n + 2)
  | "A", w => w = ['a']
  | "B", w => w = ['b']
  | _, _ => False

theorem isClosed_anbnMeaning : IsClosed anbnMeaning anbnGrammar := by
  intro p hp w h
  simp only [anbnGrammar, List.mem_cons, List.not_mem_nil, or_false] at hp
  rcases hp with rfl | rfl | rfl | rfl | rfl | rfl | rfl | rfl
  · obtain ⟨_, _, rfl, rfl, n, rfl⟩ := standsFor_pair.mp h
    exact ⟨n + 2, rfl⟩
  · obtain ⟨_, _, rfl, rfl, rfl⟩ := standsFor_pair.mp h
    exact ⟨1, rfl⟩
  · exact ⟨0, h⟩
  · obtain ⟨_, _, rfl, ⟨n, rfl⟩, rfl⟩ := standsFor_pair.mp h
    exact ⟨n, powers_append _ _⟩
  -- the bodies of `S2` are those of `S` that are not empty
  · obtain ⟨_, _, rfl, rfl, n, rfl⟩ := standsFor_pair.mp h
    exact ⟨n + 1, rfl⟩
  · obtain ⟨_, _, rfl, rfl, rfl⟩ := standsFor_pair.mp h
    exact ⟨0, rfl⟩
  · exact standsFor_terminal.mp h
  · exact standsFor_terminal.mp h

/-- A word that is not empty is derived from the inside out. -/
theorem derives_powers (n : Nat) :
    anbnGrammar.Derives [.nonterminal "S2"] (powers (n + 1) (n + 1)).form := by
  have ha : anbnGrammar.Derives [.nonterminal "A"] (Word.form ['a']) :=
    derives_of_terminal (by simp [anbnGrammar])
  have hb : anbnGrammar.Derives [.nonterminal "B"] (Word.form ['b']) :=
    derives_of_terminal (by simp [anbnGrammar])
  induction n with
  | zero => exact derives_of_pair (by simp [anbnGrammar]) ha hb
  | succ n ih =>
    have ht : anbnGrammar.Derives [.nonterminal "T"] (powers (n + 1) (n + 2)).form := by
      rw [← powers_append]
      exact derives_of_pair (by simp [anbnGrammar]) ih hb
    rw [← append_powers]
    exact derives_of_pair (by simp [anbnGrammar]) ha ht

theorem generates_anbn_iff : anbnGrammar.Generates w ↔ ∃ n, w = powers n n := by
  constructor
  · exact isClosed_anbnMeaning.of_derives
  · rintro ⟨_ | n, rfl⟩
    · exact derives_body (p := ⟨"S", []⟩) (by simp [anbnGrammar])
    · exact derives_of_bodies (by simp [anbnGrammar]) (derives_powers n)

/-! ## Balanced brackets -/

/-- The word is made of brackets, none of its prefixes has more closing than opening ones, and the
word has as many of both. -/
structure IsBalanced (w : Word) : Prop where
  isBracket : ∀ c ∈ w, c = '(' ∨ c = ')'
  count_le : ∀ u, u <+: w → u.count ')' ≤ u.count '('
  count_eq : w.count '(' = w.count ')'

/-- The bracket of a step. -/
def bracket : DyckStep → Char
  | .U => '('
  | .D => ')'

/-- The brackets of a Dyck word. -/
def spelled (p : DyckWord) : Word := p.toList.map bracket

section

variable {p : DyckWord}

@[simp] theorem spelled_zero : spelled 0 = [] := rfl

@[simp] theorem spelled_add (p q : DyckWord) : spelled (p + q) = spelled p ++ spelled q :=
  List.map_append

@[simp] theorem spelled_nest (p : DyckWord) : spelled p.nest = ['('] ++ (spelled p ++ [')']) := by
  simp [spelled, DyckWord.nest, bracket]

theorem bracket_injective : Function.Injective bracket := by
  intro s t h
  cases s <;> cases t <;> simp_all [bracket]

theorem count_map_bracket (l : List DyckStep) :
    (l.map bracket).count '(' = l.count .U ∧ (l.map bracket).count ')' = l.count .D :=
  ⟨List.count_map_of_injective l bracket bracket_injective .U,
    List.count_map_of_injective l bracket bracket_injective .D⟩

theorem isBalanced_spelled (p : DyckWord) : IsBalanced (spelled p) := by
  refine ⟨fun c hc => ?_, fun u hu => ?_, ?_⟩
  · obtain ⟨s, -, rfl⟩ := List.mem_map.mp hc
    cases s with
    | U => exact .inl rfl
    | D => exact .inr rfl
  · obtain ⟨hopen, hclose⟩ := count_map_bracket (p.toList.take u.length)
    rw [List.prefix_iff_eq_take.mp hu, spelled, ← List.map_take, hopen, hclose]
    exact p.count_D_le_count_U _
  · obtain ⟨hopen, hclose⟩ := count_map_bracket p.toList
    rw [spelled, hopen, hclose, p.count_U_eq_count_D]

theorem isBalanced_iff_exists_spelled : IsBalanced w ↔ ∃ p, w = spelled p := by
  constructor
  · intro h
    obtain ⟨l, rfl⟩ : w ∈ Set.range (List.map bracket) := by
      rw [Set.range_list_map]
      intro c hc
      rcases h.isBracket c hc with rfl | rfl
      · exact ⟨.U, rfl⟩
      · exact ⟨.D, rfl⟩
    refine ⟨⟨l, ?_, fun i => ?_⟩, rfl⟩
    · rw [← (count_map_bracket l).1, ← (count_map_bracket l).2, h.count_eq]
    · obtain ⟨hopen, hclose⟩ := count_map_bracket (l.take i)
      rw [← hopen, ← hclose, List.map_take]
      exact h.count_le _ (List.take_prefix i _)
  · rintro ⟨p, rfl⟩
    exact isBalanced_spelled p

/-- What the nonterminals of the grammar stand for. -/
def balancedMeaning : String → Word → Prop
  | "S0", w => ∃ p, w = spelled p
  | "S", w => ∃ p, w = spelled p
  | "C", w => ∃ p, w = spelled p ++ [')']
  | "L", w => w = ['(']
  | "R", w => w = [')']
  | _, _ => False

theorem isClosed_balancedMeaning : IsClosed balancedMeaning balancedGrammar := by
  -- the bodies of two nonterminals, which `S0` and `S` have in common
  have hadd : ∀ w, StandsFor balancedMeaning [.nonterminal "S", .nonterminal "S"] w →
      ∃ p, w = spelled p := by
    intro w h
    obtain ⟨_, _, rfl, ⟨p, rfl⟩, q, rfl⟩ := standsFor_pair.mp h
    exact ⟨p + q, (spelled_add p q).symm⟩
  have hpair : ∀ w, StandsFor balancedMeaning [.nonterminal "L", .nonterminal "R"] w →
      ∃ p, w = spelled p := by
    intro w h
    obtain ⟨_, _, rfl, rfl, rfl⟩ := standsFor_pair.mp h
    exact ⟨DyckWord.nest 0, (spelled_nest 0).symm⟩
  have hnest : ∀ w, StandsFor balancedMeaning [.nonterminal "L", .nonterminal "C"] w →
      ∃ p, w = spelled p := by
    intro w h
    obtain ⟨_, _, rfl, rfl, p, rfl⟩ := standsFor_pair.mp h
    exact ⟨p.nest, (spelled_nest p).symm⟩
  intro p hp w h
  simp only [balancedGrammar, List.mem_cons, List.not_mem_nil, or_false] at hp
  rcases hp with rfl | rfl | rfl | rfl | rfl | rfl | rfl | rfl | rfl | rfl
  · exact hadd w h
  · exact hpair w h
  · exact hnest w h
  · exact ⟨0, h⟩
  · exact hadd w h
  · exact hpair w h
  · exact hnest w h
  · obtain ⟨_, _, rfl, ⟨p, rfl⟩, rfl⟩ := standsFor_pair.mp h
    exact ⟨p, rfl⟩
  · exact standsFor_terminal.mp h
  · exact standsFor_terminal.mp h

/-- A pair of brackets is derived around what is derived, or around nothing. -/
theorem derives_nest
    (h : p ≠ 0 → balancedGrammar.Derives [.nonterminal "S"] (spelled p).form) :
    balancedGrammar.Derives [.nonterminal "S"] (spelled p.nest).form := by
  have hl : balancedGrammar.Derives [.nonterminal "L"] (Word.form ['(']) :=
    derives_of_terminal (by simp [balancedGrammar])
  have hr : balancedGrammar.Derives [.nonterminal "R"] (Word.form [')']) :=
    derives_of_terminal (by simp [balancedGrammar])
  rw [spelled_nest]
  by_cases hp : p = 0
  · subst hp
    exact derives_of_pair (by simp [balancedGrammar]) hl hr
  · have hc : balancedGrammar.Derives [.nonterminal "C"] (spelled p ++ [')']).form :=
      derives_of_pair (by simp [balancedGrammar]) (h hp) hr
    exact derives_of_pair (by simp [balancedGrammar]) hl hc

/-- A word that is not empty is derived by its first return. -/
theorem derives_spelled (hp : p ≠ 0) :
    balancedGrammar.Derives [.nonterminal "S"] (spelled p).form := by
  -- by induction on the number of pairs, which both sides of the first return have fewer of
  induction hsize : p.semilength using Nat.strongRecOn generalizing p with
  | _ size ih =>
    subst hsize
    have hinside : balancedGrammar.Derives [.nonterminal "S"] (spelled p.insidePart.nest).form :=
      derives_nest fun hne => ih _ (DyckWord.semilength_insidePart_lt hp) hne rfl
    rw [← DyckWord.nest_insidePart_add_outsidePart hp]
    by_cases hout : p.outsidePart = 0
    · rwa [hout, add_zero]
    · have houtside := ih _ (DyckWord.semilength_outsidePart_lt hp) hout rfl
      rw [spelled_add]
      exact derives_of_pair (by simp [balancedGrammar]) hinside houtside

end

theorem generates_balanced_iff : balancedGrammar.Generates w ↔ IsBalanced w := by
  rw [isBalanced_iff_exists_spelled]
  constructor
  · exact isClosed_balancedMeaning.of_derives
  · rintro ⟨p, rfl⟩
    by_cases hp : p = 0
    · subst hp
      exact derives_body (p := ⟨"S0", []⟩) (by simp [balancedGrammar])
    · exact derives_of_bodies (by simp [balancedGrammar]) (derives_spelled hp)

/-! ## What the samples accept -/

/-- **The sample grammars accept their languages.** The samples `anbn` and `balanced` load and give
a verdict on every word, whatever the limit. The first one accepts exactly the words of some `a` with
as many `b` behind them, and the second one exactly the words of balanced brackets. Both accept the
empty word. -/
theorem grammars_accept_their_words :
    (∃ d, definitionOf "anbn" = .ok d ∧
      ∀ w limit, ∃ s v, d.automaton.simulate w limit = some s ∧ s.result = .ok v ∧
        (v.accepted = true ↔ ∃ n, w = List.replicate n 'a' ++ List.replicate n 'b')) ∧
    ∃ d, definitionOf "balanced" = .ok d ∧
      ∀ w limit, ∃ s v, d.automaton.simulate w limit = some s ∧ s.result = .ok v ∧
        (v.accepted = true ↔ IsBalanced w) := by
  constructor
  · have hnormal : anbnGrammar.IsNormal := (check_eq_ok_iff (u := ())).mp rfl
    refine ⟨anbnDefinition, definitionOf_stem (s := anbn) (by simp [contents]), fun w limit => ?_⟩
    obtain ⟨v, hv, hiff⟩ := hnormal.exists_verdict_iff w
    exact ⟨_, v, rfl, hv, hiff.trans generates_anbn_iff⟩
  · have hnormal : balancedGrammar.IsNormal := (check_eq_ok_iff (u := ())).mp rfl
    refine ⟨balancedDefinition, definitionOf_stem (s := balanced) (by simp [contents]),
      fun w limit => ?_⟩
    obtain ⟨v, hv, hiff⟩ := hnormal.exists_verdict_iff w
    exact ⟨_, v, rfl, hv, hiff.trans generates_balanced_iff⟩

end Sample

end Acceptors
