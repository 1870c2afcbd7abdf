import Acceptors.Proofs.Grammar.Chart

/-!
# Membership by the chart

A nonterminal in a cell always has a tree over the stretch of the cell, so a word is explained
exactly if the top cell of its chart holds the start symbol. The top cell belongs to the whole word,
and the empty word, which has no chart, is decided by the empty bodies of the start symbol.

## Main results

* `RuleIndex.split?_isSome_iff`, `RuleIndex.of_split?_eq_some`: when a stretch is split, and how
* `RuleIndex.isSome_build`: a nonterminal in a cell has a tree
* `IsNormal.isSome_parse_iff_of_ne_nil`: which words other than the empty one are explained
* `parse_isSome_iff_generates`: the explained words are the generated ones
-/

namespace Acceptors

namespace Grammar

namespace RuleIndex

section

variable {r : RuleIndex} {chart : Chart} {head span start : Nat}

/-! ## Splitting a stretch -/

theorem splits_iff {b : BinaryRule} {k : Nat} :
    splits chart span start b k = true ↔
      b.left ∈ chart.cell k start ∧ b.right ∈ chart.cell (span - k) (start + k) := by
  rw [splits, Bool.and_eq_true, List.contains_iff_mem, List.contains_iff_mem]

theorem mem_places_iff {k : Nat} :
    k ∈ (List.range (span - 1)).map (· + 1) ↔ 1 ≤ k ∧ k < span := by
  rw [List.mem_map]
  constructor
  · rintro ⟨j, hj, rfl⟩
    have hlt := List.mem_range.mp hj
    omega
  · rintro ⟨hpos, hk⟩
    exact ⟨k - 1, List.mem_range.mpr (by omega), by omega⟩

/-- The rule and the place that are found fit the stretch. -/
theorem of_split?_eq_some {b : BinaryRule} {k : Nat}
    (h : r.split? chart head span start = some (b, k)) :
    b ∈ r.binaries ∧ b.head = head ∧ 1 ≤ k ∧ k < span ∧ b.left ∈ chart.cell k start ∧
      b.right ∈ chart.cell (span - k) (start + k) := by
  obtain ⟨c, hc, hfind⟩ := List.exists_of_findSome?_eq_some h
  obtain ⟨j, hj, hjk⟩ := Option.map_eq_some_iff.mp hfind
  obtain ⟨rfl, rfl⟩ := Prod.mk.inj hjk
  obtain ⟨hmem, hhead⟩ := List.mem_filter.mp hc
  obtain ⟨hpos, hlt⟩ := mem_places_iff.mp (List.mem_of_find?_eq_some hj)
  obtain ⟨hl, hr⟩ := splits_iff.mp (List.find?_some hj)
  exact ⟨hmem, of_decide_eq_true hhead, hpos, hlt, hl, hr⟩

/-- A stretch is split if some rule fits it at some place. -/
theorem split?_isSome_iff :
    (r.split? chart head span start).isSome ↔
      ∃ b ∈ r.binaries, b.head = head ∧ ∃ k, 1 ≤ k ∧ k < span ∧ b.left ∈ chart.cell k start ∧
        b.right ∈ chart.cell (span - k) (start + k) := by
  constructor
  · intro h
    obtain ⟨⟨b, k⟩, hbk⟩ := Option.isSome_iff_exists.mp h
    obtain ⟨hb, hhead, hpos, hlt, hl, hr⟩ := of_split?_eq_some hbk
    exact ⟨b, hb, hhead, k, hpos, hlt, hl, hr⟩
  · rintro ⟨b, hb, hhead, k, hpos, hlt, hl, hr⟩
    rw [split?, List.findSome?_isSome_iff]
    refine ⟨b, List.mem_filter.mpr ⟨hb, decide_eq_true hhead⟩, ?_⟩
    rw [Option.isSome_map, List.find?_isSome]
    exact ⟨k, mem_places_iff.mpr ⟨hpos, hlt⟩, splits_iff.mpr ⟨hl, hr⟩⟩

/-! ## Building a tree -/

theorem build_one (chart : Chart) (w : Word) (height head start : Nat) :
    r.build chart w (height + 1) head 1 start =
      (w[start]?).bind fun c =>
        (r.units.find? fun u => u.head = head && u.terminal = c).map fun u =>
          (.branch ((r.names[head]?).getD "") [.leaf c], [u.production]) := by
  rw [build]
  cases w[start]? with
  | none => rfl
  | some c =>
    cases hu : r.units.find? fun u => u.head = head && u.terminal = c <;> simp [hu]

theorem build_of_split? {chart : Chart} {w : Word} {height : Nat} {b : BinaryRule} {k : Nat}
    (hspan : span ≠ 1) (h : r.split? chart head span start = some (b, k)) :
    r.build chart w (height + 1) head span start =
      (r.build chart w height b.left k start).bind fun (left, leftSteps) =>
        (r.build chart w height b.right (span - k) (start + k)).map fun (right, rightSteps) =>
          (.branch ((r.names[head]?).getD "") [left, right],
            b.production :: leftSteps ++ rightSteps) := by
  rw [build, if_neg hspan, h]
  cases hl : r.build chart w height b.left k start with
  | none => simp [hl]
  | some left =>
    cases hr : r.build chart w height b.right (span - k) (start + k) <;> simp [hl, hr]

/-- A nonterminal in a cell has a tree over the stretch of the cell. -/
theorem isSome_build {w : Word} {n height : Nat} (hheight : span ≤ height) (hpos : 1 ≤ span)
    (hn : span ≤ n + 1) (hend : start + span ≤ w.length)
    (h : head ∈ (r.chartUpTo w n).cell span start) :
    (r.build (r.chartUpTo w n) w height head span start).isSome := by
  induction height generalizing head span start with
  | zero => omega
  | succ height ih =>
    rcases (by omega : span = 1 ∨ 2 ≤ span) with rfl | hspan
    · obtain ⟨-, u, hu, hc, hhead⟩ := r.mem_cell_one_iff.mp h
      rw [build_one, hc, Option.bind_some, Option.isSome_map, List.find?_isSome]
      exact ⟨u, hu, by simp [hhead]⟩
    · obtain ⟨-, k, hk, hlt, b, hb, hl, hr, hhead⟩ := (r.mem_cell_iff_split hspan hn hend).mp h
      have hsplit : (r.split? (r.chartUpTo w n) head span start).isSome :=
        split?_isSome_iff.mpr ⟨b, hb, hhead, k, hk, hlt, hl, hr⟩
      obtain ⟨⟨b', k'⟩, hbk⟩ := Option.isSome_iff_exists.mp hsplit
      obtain ⟨-, -, hk', hlt', hl', hr'⟩ := of_split?_eq_some hbk
      -- the parts of the split that is found are shorter than the stretch
      have hleft : (r.build (r.chartUpTo w n) w height b'.left k' start).isSome :=
        ih (by omega) hk' (by omega) (by omega) hl'
      have hright :
          (r.build (r.chartUpTo w n) w height b'.right (span - k') (start + k')).isSome :=
        ih (by omega) (by omega) (by omega) (by omega) hr'
      obtain ⟨left, hleft⟩ := Option.isSome_iff_exists.mp hleft
      rw [build_of_split? (by omega) hbk, hleft, Option.bind_some, Option.isSome_map]
      exact hright

theorem isSome_parse_of_ne_nil {w : Word} (hw : w ≠ []) :
    (r.parse w).isSome ↔ 0 ∈ (r.chart w).cell w.length 0 := by
  have hlen : 0 < w.length := List.length_pos_iff.mpr hw
  rw [parse, if_neg (by simpa using hw)]
  dsimp only
  constructor
  · intro h
    split at h
    · next hcell => exact List.contains_iff_mem.mp hcell
    · cases h
  · intro h
    rw [if_pos (List.contains_iff_mem.mpr h), Option.isSome_map]
    exact isSome_build (Nat.le_refl _) hlen (by omega) (by omega) h

end

end RuleIndex

section

variable {g : Grammar}

theorem indexed_eq_ok_iff {r : RuleIndex} :
    g.indexed = .ok r ↔ g.IsNormal ∧ g.ruleIndex = r := by
  rw [← check_eq_ok_iff (u := ()), indexed]
  cases g.check <;> simp [Except.map]

theorem isSome_parse_nil : (g.ruleIndex.parse []).isSome ↔
    ∃ p ∈ g.productions, p.body = [] ∧ p.head = g.start := by
  have hparse : (g.ruleIndex.parse []).isSome = g.ruleIndex.empty?.isSome := by
    simp [RuleIndex.parse, RuleIndex.parseEmpty]
  rw [hparse, ruleIndex, List.find?_isSome]
  simp

/-- The start symbol has number zero, and the top cell belongs to the whole word. -/
theorem IsNormal.isSome_parse_iff_of_ne_nil (h : g.IsNormal) {w : Word} (hw : w ≠ []) :
    (g.ruleIndex.parse w).isSome ↔ g.Generates w := by
  have hlen : 0 < w.length := List.length_pos_iff.mpr hw
  have hzero : g.numberOf g.start = 0 := numberOf_eq_of_getElem? getElem?_nonterminals_zero
  have hcell : g.numberOf g.start ∈ (g.ruleIndex.chart w).cell w.length 0 ↔
      g.Derives [.nonterminal g.start] (Word.form (w.stretch 0 w.length)) :=
    h.numberOf_mem_cell_iff g.start_mem_nonterminals hlen (by omega) (by omega)
  rw [hzero, Word.stretch_zero_length] at hcell
  rw [RuleIndex.isSome_parse_of_ne_nil hw]
  exact hcell

/-- **The explained words are the generated ones.** If the check of a grammar passes, its chart
decides which words it generates. -/
theorem parse_isSome_iff_generates {r : RuleIndex} (h : g.indexed = .ok r) (w : Word) :
    (r.parse w).isSome ↔ g.Generates w := by
  obtain ⟨hg, rfl⟩ := indexed_eq_ok_iff.mp h
  by_cases hw : w = []
  · rw [hw, isSome_parse_nil, hg.generates_nil_iff]
  · exact hg.isSome_parse_iff_of_ne_nil hw

end

/-- Some `a` and as many `b` behind them. -/
def nested : Grammar where
  start := "S"
  productions := [
    ⟨"S", []⟩,
    ⟨"S", [.nonterminal "A", .nonterminal "B"]⟩,
    ⟨"S", [.nonterminal "A", .nonterminal "R"]⟩,
    ⟨"T", [.nonterminal "A", .nonterminal "B"]⟩,
    ⟨"T", [.nonterminal "A", .nonterminal "R"]⟩,
    ⟨"R", [.nonterminal "T", .nonterminal "B"]⟩,
    ⟨"A", [.terminal 'a']⟩,
    ⟨"B", [.terminal 'b']⟩]

theorem nested_generates :
    nested.indexed = .ok nested.ruleIndex ∧ nested.Generates ['a', 'a', 'b', 'b'] ∧
      ¬ nested.Generates ['a', 'b', 'b'] := by
  have h : nested.indexed = .ok nested.ruleIndex := rfl
  refine ⟨h, (parse_isSome_iff_generates h _).mp (by decide +kernel), fun hd => ?_⟩
  have hparse := (parse_isSome_iff_generates h _).mpr hd
  exact absurd hparse (by decide +kernel)

end Grammar

end Acceptors
